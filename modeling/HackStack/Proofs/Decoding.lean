import HackStack.Text.Utf8

/-!
# Texts and their bytes

The bytes of a text are decoded to the text (`decode_encode`): each character has its
bytes (`decodeOnto_encodeChar`), and what follows them is decoded from a fresh start.

Bytes that can be decoded at all are decoded alike when they come in blocks
(`decodeBlocks_of_decode`). Where a block ends inside a character, the bytes that it leaves
pending are read once more in front of the next, and that makes no difference (`Held`).
-/

namespace HackStack.Text.Utf8

/-! ### The bytes of a text -/

theorem toList_loop (bs : ByteArray) (i : Nat) (r : Bytes) :
    ByteArray.toList.loop bs i r = r.reverse ++ bs.data.toList.drop i := by
  fun_induction ByteArray.toList.loop bs i r with
  | case1 i r hi ih =>
    have hdrop : bs.data.toList.drop i = bs.get! i :: bs.data.toList.drop (i + 1) := by
      have hi' : i < bs.data.toList.length := hi
      rw [List.drop_eq_getElem_cons hi']
      simp only [ByteArray.get!, Array.getElem_toList]
      rw [getElem!_pos bs.data i hi]
    rw [ih, hdrop, List.reverse_cons, List.append_assoc, List.singleton_append]
  | case2 i r hi =>
    have hi' : bs.data.toList.length ≤ i := Nat.le_of_not_lt hi
    rw [List.drop_eq_nil_of_le hi', List.append_nil]

/-- The bytes of a text are those of its characters. -/
theorem encode_eq_flatMap (t : Text) : encode t = t.flatMap String.utf8EncodeChar := by
  rw [encode, String.toUTF8_eq_toByteArray, String.toByteArray_ofList, ByteArray.toList,
    toList_loop, List.reverse_nil, List.nil_append, List.drop_zero, List.utf8Encode,
    List.toList_data_toByteArray]

/-! ### One character -/

section Read

variable {a b c d : UInt8}

theorem within_iff {lo hi : UInt8} :
    within lo hi b = true ↔ lo.toNat ≤ b.toNat ∧ b.toNat ≤ hi.toNat := by
  rw [within, Bool.and_eq_true, decide_eq_true_iff, decide_eq_true_iff, UInt8.le_iff_toNat_le,
    UInt8.le_iff_toNat_le]

theorem isContinuation_iff : isContinuation b = true ↔ 0x80 ≤ b.toNat ∧ b.toNat ≤ 0xbf :=
  within_iff

theorem beq_iff_toNat {x : UInt8} : (a == x) = true ↔ a.toNat = x.toNat := by
  rw [beq_iff_eq, UInt8.toNat_inj]

/-- A second byte continues the character, unless the lead byte allows less. -/
theorem isSecond_of_isContinuation (h : isContinuation b = true)
    (he0 : a.toNat = 0xe0 → 0xa0 ≤ b.toNat) (hed : a.toNat = 0xed → b.toNat ≤ 0x9f)
    (hf0 : a.toNat = 0xf0 → 0x90 ≤ b.toNat) (hf4 : a.toNat = 0xf4 → b.toNat ≤ 0x8f) :
    isSecond a b = true := by
  have hb := isContinuation_iff.mp h
  unfold isSecond
  split
  · rename_i ha
    exact within_iff.mpr ⟨he0 (beq_iff_toNat.mp ha), hb.2⟩
  · split
    · rename_i ha
      exact within_iff.mpr ⟨hb.1, hed (beq_iff_toNat.mp ha)⟩
    · split
      · rename_i ha
        exact within_iff.mpr ⟨hf0 (beq_iff_toNat.mp ha), hb.2⟩
      · split
        · rename_i ha
          exact within_iff.mpr ⟨hb.1, hf4 (beq_iff_toNat.mp ha)⟩
        · exact h

theorem read_one (h : a.toNat < 0x80) : read [a] = .char (Char.ofNat a.toNat) := by
  have hlt : a < 0x80 := UInt8.lt_iff_toNat_lt.mpr h
  rw [read, if_pos hlt]

theorem read_lead (h : 0xc2 ≤ a.toNat) (h' : a.toNat ≤ 0xf4) : read [a] = .unfinished := by
  have hlt : ¬ a < 0x80 := by rw [UInt8.lt_iff_toNat_lt]; simp only [UInt8.reduceToNat]; omega
  have hlead : within 0xc2 0xf4 a = true := within_iff.mpr ⟨h, h'⟩
  rw [read, if_neg hlt, if_pos hlead]

theorem read_two (ha : a.toNat < 0xe0) (hb : isSecond a b = true) :
    read [a, b] = .char (Char.ofNat ((a.toNat - 0xc0) * 0x40 + payload b)) := by
  have hlt : a < 0xe0 := UInt8.lt_iff_toNat_lt.mpr ha
  rw [read, hb, Bool.not_true, if_neg Bool.false_ne_true, if_pos hlt]

theorem read_two_unfinished (ha : 0xe0 ≤ a.toNat) (hb : isSecond a b = true) :
    read [a, b] = .unfinished := by
  have hlt : ¬ a < 0xe0 := by rw [UInt8.lt_iff_toNat_lt]; simp only [UInt8.reduceToNat]; omega
  rw [read, hb, Bool.not_true, if_neg Bool.false_ne_true, if_neg hlt]

theorem read_three (ha : a.toNat < 0xf0) (hc : isContinuation c = true) :
    read [a, b, c] =
      .char (Char.ofNat (((a.toNat - 0xe0) * 0x40 + payload b) * 0x40 + payload c)) := by
  have hlt : a < 0xf0 := UInt8.lt_iff_toNat_lt.mpr ha
  rw [read, hc, Bool.not_true, if_neg Bool.false_ne_true, if_pos hlt]

theorem read_three_unfinished (ha : 0xf0 ≤ a.toNat) (hc : isContinuation c = true) :
    read [a, b, c] = .unfinished := by
  have hlt : ¬ a < 0xf0 := by rw [UInt8.lt_iff_toNat_lt]; simp only [UInt8.reduceToNat]; omega
  rw [read, hc, Bool.not_true, if_neg Bool.false_ne_true, if_neg hlt]

theorem read_four (hd : isContinuation d = true) :
    read [a, b, c, d] = .char (Char.ofNat
      ((((a.toNat - 0xf0) * 0x40 + payload b) * 0x40 + payload c) * 0x40 + payload d)) := by
  rw [read, hd, Bool.not_true, if_neg Bool.false_ne_true]

end Read

section Step

variable {last : Bool} {start : Nat} {pending : Bytes} {acc : Text}

theorem decodeOnto_of_unfinished {b : UInt8} (h : read (pending ++ [b]) = .unfinished)
    (rest : Bytes) :
    decodeOnto last start pending acc (b :: rest) =
      decodeOnto last start (pending ++ [b]) acc rest := by
  rw [decodeOnto]
  simp only [h]

theorem decodeOnto_of_char {b : UInt8} {c : Char} (h : read (pending ++ [b]) = .char c)
    (rest : Bytes) :
    decodeOnto last start pending acc (b :: rest) =
      decodeOnto last (start + (pending ++ [b]).length) [] (c :: acc) rest := by
  rw [decodeOnto]
  simp only [h]

variable {a b c d : UInt8} {x : Char}

theorem decodeOnto_two (ha : read [a] = .unfinished) (hb : read [a, b] = .char x)
    (rest : Bytes) :
    decodeOnto last start [] acc (a :: b :: rest) =
      decodeOnto last (start + 2) [] (x :: acc) rest :=
  (decodeOnto_of_unfinished ha (b :: rest)).trans (decodeOnto_of_char hb rest)

theorem decodeOnto_three (ha : read [a] = .unfinished) (hb : read [a, b] = .unfinished)
    (hc : read [a, b, c] = .char x) (rest : Bytes) :
    decodeOnto last start [] acc (a :: b :: c :: rest) =
      decodeOnto last (start + 3) [] (x :: acc) rest :=
  calc decodeOnto last start [] acc (a :: b :: c :: rest)
    _ = decodeOnto last start [a] acc (b :: c :: rest) := decodeOnto_of_unfinished ha _
    _ = decodeOnto last start [a, b] acc (c :: rest) := decodeOnto_of_unfinished hb _
    _ = decodeOnto last (start + 3) [] (x :: acc) rest := decodeOnto_of_char hc rest

theorem decodeOnto_four (ha : read [a] = .unfinished) (hb : read [a, b] = .unfinished)
    (hc : read [a, b, c] = .unfinished) (hd : read [a, b, c, d] = .char x) (rest : Bytes) :
    decodeOnto last start [] acc (a :: b :: c :: d :: rest) =
      decodeOnto last (start + 4) [] (x :: acc) rest :=
  calc decodeOnto last start [] acc (a :: b :: c :: d :: rest)
    _ = decodeOnto last start [a] acc (b :: c :: d :: rest) := decodeOnto_of_unfinished ha _
    _ = decodeOnto last start [a, b] acc (c :: d :: rest) := decodeOnto_of_unfinished hb _
    _ = decodeOnto last start [a, b, c] acc (d :: rest) := decodeOnto_of_unfinished hc _
    _ = decodeOnto last (start + 4) [] (x :: acc) rest := decodeOnto_of_char hd rest

end Step

/-- **The bytes of a character** are decoded to the character. -/
theorem decodeOnto_encodeChar (last : Bool) (start : Nat) (acc : Text) (c : Char) (rest : Bytes) :
    ∃ next, decodeOnto last start [] acc (String.utf8EncodeChar c ++ rest) =
      decodeOnto last next [] (c :: acc) rest := by
  have hvalid : c.toNat < 0xd800 ∨ 0xdfff < c.toNat ∧ c.toNat < 0x110000 := c.valid
  have hchar {n : Nat} (h : n = c.toNat) : Reading.char (Char.ofNat n) = .char c := by
    rw [h, Char.ofNat_toNat]
  unfold String.utf8EncodeChar
  rw [show c.val.toNat = c.toNat from rfl]
  generalize c.toNat = v at hvalid hchar
  have hsize : UInt8.size = 0x100 := rfl
  simp only
  -- One case per number of bytes; in each the bytes are known by what they are as numbers.
  split
  · have ha : (UInt8.ofNat v).toNat = v := UInt8.toNat_ofNat_of_lt' (by omega)
    generalize UInt8.ofNat v = a at ha
    exact ⟨_, decodeOnto_of_char ((read_one (by omega)).trans (hchar ha)) rest⟩
  split
  · have ha : (UInt8.ofNat (v / 64 % 0x20 + 0xc0)).toNat = v / 64 + 0xc0 := by
      rw [UInt8.toNat_ofNat_of_lt' (by omega)]; omega
    have hb : (UInt8.ofNat (v % 0x40 + 0x80)).toNat = v % 0x40 + 0x80 :=
      UInt8.toNat_ofNat_of_lt' (by omega)
    generalize UInt8.ofNat (v / 64 % 0x20 + 0xc0) = a at ha
    generalize UInt8.ofNat (v % 0x40 + 0x80) = b at hb
    have hsecond : isSecond a b = true :=
      isSecond_of_isContinuation (isContinuation_iff.mpr (by omega)) (by omega) (by omega)
        (by omega) (by omega)
    have hread : read [a, b] = .char c :=
      (read_two (by omega) hsecond).trans (hchar (by unfold payload; omega))
    exact ⟨_, decodeOnto_two (read_lead (by omega) (by omega)) hread rest⟩
  split
  · have ha : (UInt8.ofNat (v / 4096 % 0x10 + 0xe0)).toNat = v / 4096 + 0xe0 := by
      rw [UInt8.toNat_ofNat_of_lt' (by omega)]; omega
    have hb : (UInt8.ofNat (v / 64 % 0x40 + 0x80)).toNat = v / 64 % 0x40 + 0x80 :=
      UInt8.toNat_ofNat_of_lt' (by omega)
    have hd : (UInt8.ofNat (v % 0x40 + 0x80)).toNat = v % 0x40 + 0x80 :=
      UInt8.toNat_ofNat_of_lt' (by omega)
    generalize UInt8.ofNat (v / 4096 % 0x10 + 0xe0) = a at ha
    generalize UInt8.ofNat (v / 64 % 0x40 + 0x80) = b at hb
    generalize UInt8.ofNat (v % 0x40 + 0x80) = d at hd
    have hsecond : isSecond a b = true :=
      isSecond_of_isContinuation (isContinuation_iff.mpr (by omega)) (by omega) (by omega)
        (by omega) (by omega)
    have hread : read [a, b, d] = .char c :=
      (read_three (by omega) (isContinuation_iff.mpr (by omega))).trans
        (hchar (by unfold payload; omega))
    exact ⟨_, decodeOnto_three (read_lead (by omega) (by omega))
      (read_two_unfinished (by omega) hsecond) hread rest⟩
  · have ha : (UInt8.ofNat (v / 262144 % 8 + 0xf0)).toNat = v / 262144 + 0xf0 := by
      rw [UInt8.toNat_ofNat_of_lt' (by omega)]; omega
    have hb : (UInt8.ofNat (v / 4096 % 0x40 + 0x80)).toNat = v / 4096 % 0x40 + 0x80 :=
      UInt8.toNat_ofNat_of_lt' (by omega)
    have hd : (UInt8.ofNat (v / 64 % 0x40 + 0x80)).toNat = v / 64 % 0x40 + 0x80 :=
      UInt8.toNat_ofNat_of_lt' (by omega)
    have he : (UInt8.ofNat (v % 0x40 + 0x80)).toNat = v % 0x40 + 0x80 :=
      UInt8.toNat_ofNat_of_lt' (by omega)
    generalize UInt8.ofNat (v / 262144 % 8 + 0xf0) = a at ha
    generalize UInt8.ofNat (v / 4096 % 0x40 + 0x80) = b at hb
    generalize UInt8.ofNat (v / 64 % 0x40 + 0x80) = d at hd
    generalize UInt8.ofNat (v % 0x40 + 0x80) = e at he
    have hsecond : isSecond a b = true :=
      isSecond_of_isContinuation (isContinuation_iff.mpr (by omega)) (by omega) (by omega)
        (by omega) (by omega)
    have hread : read [a, b, d, e] = .char c :=
      (read_four (isContinuation_iff.mpr (by omega))).trans (hchar (by unfold payload; omega))
    exact ⟨_, decodeOnto_four (read_lead (by omega) (by omega))
      (read_two_unfinished (by omega) hsecond)
      (read_three_unfinished (by omega) (isContinuation_iff.mpr (by omega))) hread rest⟩

/-- The bytes of a text are decoded to the text, whatever comes after them. -/
theorem decodeOnto_encode (last : Bool) (t : Text) (start : Nat) (acc : Text) (rest : Bytes) :
    ∃ next, decodeOnto last start [] acc (encode t ++ rest) =
      decodeOnto last next [] (t.reverse ++ acc) rest := by
  rw [encode_eq_flatMap]
  induction t generalizing start acc with
  | nil => exact ⟨start, rfl⟩
  | cons c t ih =>
    obtain ⟨mid, hmid⟩ := decodeOnto_encodeChar last start acc c
      (t.flatMap String.utf8EncodeChar ++ rest)
    obtain ⟨next, hnext⟩ := ih mid (c :: acc)
    refine ⟨next, ?_⟩
    rw [List.flatMap_cons, List.append_assoc, hmid, hnext, List.reverse_cons, List.append_assoc,
      List.singleton_append]

/-- **The bytes of a text** are decoded to the text. -/
theorem decode_encode (t : Text) : decode (encode t) = .ok t := by
  obtain ⟨next, h⟩ := decodeOnto_encode true t 0 [] []
  rw [List.append_nil, List.append_nil] at h
  rw [decode, h, decodeOnto]
  simp [Except.map]

theorem encode_inj {s t : Text} (h : encode s = encode t) : s = t := by
  have hdecode := congrArg decode h
  rw [decode_encode, decode_encode] at hdecode
  exact Except.ok.inj hdecode

/-! ### Bytes in blocks -/

/-- Bytes that can wait: they are the start of a character, so that reading them once more leads
back to where they are pending. -/
def Held (p : Bytes) : Prop :=
  ∀ (last : Bool) (start : Nat) (acc : Text) (rest : Bytes),
    decodeOnto last start [] acc (p ++ rest) = decodeOnto last start p acc rest

theorem held_nil : Held [] := fun _ _ _ _ => rfl

theorem Held.concat {p : Bytes} {b : UInt8} (h : Held p) (hread : read (p ++ [b]) = .unfinished) :
    Held (p ++ [b]) := by
  intro last start acc rest
  rw [List.append_assoc, h, List.singleton_append, decodeOnto_of_unfinished hread]

/-- In the last stretch no byte may break a character off. -/
theorem read_ne_broken {start : Nat} {p : Bytes} {acc : Text} {b : UInt8} {rest : Bytes}
    {v : Text × Bytes} (h : decodeOnto true start p acc (b :: rest) = .ok v) :
    read (p ++ [b]) ≠ .broken := by
  intro hread
  rw [decodeOnto] at h
  simp only [hread, Bool.not_true, Bool.false_and, Bool.false_eq_true, if_false] at h
  split at h <;> simp at h

/-- Only faults depend on where the bytes start. -/
theorem decodeOnto_start {start : Nat} {p : Bytes} {acc : Text} {bytes : Bytes} {v : Text × Bytes}
    (h : decodeOnto true start p acc bytes = .ok v) (other : Nat) :
    decodeOnto true other p acc bytes = .ok v := by
  induction bytes generalizing start other p acc with
  | nil =>
    rw [decodeOnto] at h ⊢
    split at h
    · cases h
    · rename_i hp
      rw [if_neg hp, h]
  | cons b rest ih =>
    cases hread : read (p ++ [b]) with
    | char c =>
      rw [decodeOnto_of_char hread] at h ⊢
      exact ih h _
    | unfinished =>
      rw [decodeOnto_of_unfinished hread] at h ⊢
      exact ih h _
    | broken => exact absurd hread (read_ne_broken h)

/-- **Bytes cut in two** are decoded in two stretches, with what the first leaves pending read in
front of the second. -/
theorem decodeOnto_append {start : Nat} {p : Bytes} {acc : Text} {xs ys : Bytes}
    {v : Text × Bytes} (hp : Held p) (h : decodeOnto true start p acc (xs ++ ys) = .ok v)
    (first : Nat) :
    ∃ acc' p' next, decodeOnto false first p acc xs = .ok (acc', p') ∧
      decodeOnto true next [] acc' (p' ++ ys) = .ok v := by
  induction xs generalizing start first p acc with
  | nil => exact ⟨acc, p, start, rfl, (hp true start acc ys).trans h⟩
  | cons b xs ih =>
    rw [List.cons_append] at h
    cases hread : read (p ++ [b]) with
    | char c =>
      rw [decodeOnto_of_char hread] at h ⊢
      exact ih held_nil h _
    | unfinished =>
      rw [decodeOnto_of_unfinished hread] at h ⊢
      exact ih (hp.concat hread) h _
    | broken => exact absurd hread (read_ne_broken h)

theorem flatten_blocks (size fuel : Nat) (bytes : Bytes) :
    (blocks size fuel bytes).flatten = bytes := by
  fun_induction blocks size fuel bytes with
  | case1 => rfl
  | case2 bytes => simp
  | case3 fuel bytes _ ih => rw [List.flatten_cons, ih, List.take_append_drop]

theorem decodeBlocksOnto_of_decodeOnto {pending : Bytes} {acc : Text} {bs : List Bytes}
    {start : Nat} {v : Text × Bytes}
    (h : decodeOnto true start [] acc (pending ++ bs.flatten) = .ok v) :
    decodeBlocksOnto pending acc bs = .ok v.1.reverse := by
  induction bs generalizing pending acc start with
  | nil =>
    rw [List.flatten_nil, List.append_nil] at h
    rw [decodeBlocksOnto, decodeOnto_start h 0]
    rfl
  | cons block more ih =>
    rw [List.flatten_cons, ← List.append_assoc] at h
    obtain ⟨acc', p', next, hfirst, hnext⟩ := decodeOnto_append held_nil h 0
    rw [decodeBlocksOnto, hfirst]
    exact ih hnext

/-- **Blocks make no difference** to bytes that can be decoded. -/
theorem decodeBlocks_of_decode {bytes : Bytes} {t : Text} (h : decode bytes = .ok t) :
    decodeBlocks bytes = .ok t := by
  rw [decode] at h
  cases hv : decodeOnto true 0 [] [] bytes with
  | error e => rw [hv] at h; cases h
  | ok v =>
    rw [hv] at h
    have hflat : decodeOnto true 0 [] [] ([] ++ (blocks blockSize bytes.length bytes).flatten) =
        .ok v := by
      rw [List.nil_append, flatten_blocks, hv]
    rw [decodeBlocks, decodeBlocksOnto_of_decodeOnto hflat]
    exact h

/-- The bytes of a text are decoded to the text in blocks too. -/
theorem decodeBlocks_encode (t : Text) : decodeBlocks (encode t) = .ok t :=
  decodeBlocks_of_decode (decode_encode t)

end HackStack.Text.Utf8
