import JavaFold.Source.Utf8
import Mathlib.Tactic.IntervalCases

/-!
# Text and its bytes

The bytes of a text are those of its characters, one character after the other. A character that is not
ASCII has only bytes from 128 on, so an ASCII byte is always a character of its own: bytes of a text can be
cut in front of it and after it, and both parts are bytes of a text. Decoding the bytes of a text gives
the text.
-/

namespace JavaFold.Utf8

/-- The bytes of a character. -/
def charBytes (c : Char) : List UInt8 := String.utf8EncodeChar c

/-- The bytes of characters. -/
def bytesOf (cs : List Char) : List UInt8 := cs.flatMap charBytes

theorem encode_ofList (cs : List Char) : encode (String.ofList cs) = bytesOf cs := by
  simp only [encode, String.toByteArray_ofList, List.utf8Encode, List.data_toByteArray]
  rfl

theorem encode_eq (s : String) : encode s = bytesOf s.toList := by
  rw [← encode_ofList, String.ofList_toList]

theorem bytesOf_append (cs ds : List Char) : bytesOf (cs ++ ds) = bytesOf cs ++ bytesOf ds := by
  exact List.flatMap_append

theorem bytesOf_cons (c : Char) (cs : List Char) : bytesOf (c :: cs) = charBytes c ++ bytesOf cs := by
  exact List.flatMap_cons

@[simp] theorem encode_append (s t : String) : encode (s ++ t) = encode s ++ encode t := by
  rw [encode_eq, encode_eq, encode_eq, String.toList_append, bytesOf_append]

@[simp] theorem encode_empty : encode "" = [] := by
  rw [encode_eq]
  rfl

/-! ## Where an ASCII byte stands -/

theorem charBytes_ascii {c : Char} (h : c.toNat < 128) : charBytes c = [UInt8.ofNat c.toNat] := by
  have hle : c.val.toNat ≤ 0x7f := Nat.le_of_lt_succ h
  unfold charBytes String.utf8EncodeChar
  exact if_pos hle

theorem charBytes_ne_nil (c : Char) : charBytes c ≠ [] := String.utf8EncodeChar_ne_nil

/-- A byte that leads or continues a character is none of ASCII. -/
theorem le_toNat_ofNat {n : Nat} (h : 128 ≤ n) (h' : n < 256) : 128 ≤ (UInt8.ofNat n).toNat := by
  rw [UInt8.toNat_ofNat']
  omega

theorem le_of_mem_charBytes {c : Char} (h : 128 ≤ c.toNat) : ∀ b ∈ charBytes c, 128 ≤ b.toNat := by
  have hgt : ¬c.val.toNat ≤ 0x7f := Nat.not_le.mpr h
  unfold charBytes String.utf8EncodeChar
  dsimp only
  rw [if_neg hgt]
  split
  · simp only [List.forall_mem_cons]
    refine ⟨le_toNat_ofNat (by omega) (by omega), le_toNat_ofNat (by omega) (by omega), ?_⟩
    exact fun b hb => absurd hb List.not_mem_nil
  split
  · simp only [List.forall_mem_cons]
    refine ⟨le_toNat_ofNat (by omega) (by omega), le_toNat_ofNat (by omega) (by omega),
      le_toNat_ofNat (by omega) (by omega), ?_⟩
    exact fun b hb => absurd hb List.not_mem_nil
  · simp only [List.forall_mem_cons]
    refine ⟨le_toNat_ofNat (by omega) (by omega), le_toNat_ofNat (by omega) (by omega),
      le_toNat_ofNat (by omega) (by omega), le_toNat_ofNat (by omega) (by omega), ?_⟩
    exact fun b hb => absurd hb List.not_mem_nil

/-- A character whose bytes hold an ASCII byte is this byte. -/
theorem charBytes_eq_of_mem {c : Char} {b : UInt8} (hb : b ∈ charBytes c) (h : b.toNat < 128) :
    charBytes c = [b] := by
  rcases Nat.lt_or_ge c.toNat 128 with hc | hc
  · rw [charBytes_ascii hc] at hb ⊢
    rw [List.mem_singleton.mp hb]
  · exact absurd (le_of_mem_charBytes hc b hb) (by omega)

/-- The bytes of a text can be cut in front of an ASCII byte. -/
theorem bytesOf_eq_append_cons {cs : List Char} : ∀ {front back : List UInt8} {b : UInt8},
    bytesOf cs = front ++ b :: back → b.toNat < 128 →
      ∃ ds es, cs = ds ++ es ∧ bytesOf ds = front ∧ bytesOf es = b :: back := by
  induction cs with
  | nil =>
    intro front back b h _
    exact absurd h.symm (by simp [bytesOf])
  | cons c cs ih =>
    intro front back b h hb
    rw [bytesOf_cons] at h
    rcases List.append_eq_append_iff.mp h with ⟨more, hfront, hrest⟩ | ⟨more, hc, hrest⟩
    · obtain ⟨ds, es, rfl, hds, hes⟩ := ih hrest hb
      exact ⟨c :: ds, es, rfl, by rw [bytesOf_cons, hds, hfront], hes⟩
    · cases more with
      | nil =>
        obtain ⟨ds, es, rfl, hds, hes⟩ := @ih [] back b hrest.symm hb
        refine ⟨c :: ds, es, rfl, ?_, hes⟩
        rw [bytesOf_cons, hds, hc, List.append_nil, List.append_nil]
      | cons x more =>
        obtain ⟨rfl, hrest⟩ := List.cons.inj hrest
        have hx := charBytes_eq_of_mem (hc ▸ List.mem_append_right front List.mem_cons_self) hb
        have hfront : front = [] := by
          have := congrArg List.length (hx.symm.trans hc)
          rw [List.length_append] at this
          exact List.length_eq_zero_iff.mp (by simp at this; omega)
        subst hfront
        exact ⟨[], c :: cs, rfl, rfl, by rw [bytesOf_cons, h]; rfl⟩

/-- The bytes of a text can be cut after an ASCII byte. -/
theorem bytesOf_eq_cons {cs : List Char} {b : UInt8} {back : List UInt8} (h : bytesOf cs = b :: back)
    (hb : b.toNat < 128) : ∃ es, bytesOf es = back := by
  cases cs with
  | nil => cases h
  | cons c cs =>
    rw [bytesOf_cons] at h
    obtain ⟨x, xs, hx⟩ := List.exists_cons_of_ne_nil (charBytes_ne_nil c)
    rw [hx, List.cons_append] at h
    obtain ⟨rfl, hrest⟩ := List.cons.inj h
    have hone := charBytes_eq_of_mem (hx ▸ List.mem_cons_self) hb
    rw [hx] at hone
    cases hone
    exact ⟨cs, hrest⟩

/-! ## Decoding -/

/-- The byte that carries six bits of a character. -/
def continuation (n : Nat) : UInt8 := UInt8.ofNat (n % 64 + 0x80)

theorem toNat_continuation (n : Nat) : (continuation n).toNat = n % 64 + 128 := by
  rw [continuation, UInt8.toNat_ofNat']
  omega

theorem continuation_mem {low high : UInt8} {n : Nat} (hlow : low.toNat ≤ n % 64 + 128)
    (hhigh : n % 64 + 128 ≤ high.toNat) : low ≤ continuation n ∧ continuation n ≤ high := by
  rw [UInt8.le_iff_toNat_le, UInt8.le_iff_toNat_le, toNat_continuation]
  exact ⟨hlow, hhigh⟩

/-- Reading a byte of the pending character that is not its last one. -/
theorem decodeFrom_more {bits missing n : Nat} {low high : UInt8} {rest : List UInt8}
    (hlow : low.toNat ≤ n % 64 + 128) (hhigh : n % 64 + 128 ≤ high.toNat) (more : 2 ≤ missing) :
    decodeFrom (some ⟨bits, missing, low, high⟩) (continuation n :: rest) =
      decodeFrom (some ⟨bits * 64 + n % 64, missing - 1, 0x80, 0xBF⟩) rest := by
  rw [decodeFrom, next, if_pos (continuation_mem hlow hhigh)]
  dsimp only
  rw [if_neg (by omega), toNat_continuation, Nat.add_sub_cancel]
  rfl

/-- Reading the last byte of the pending character. -/
theorem decodeFrom_last {bits n : Nat} {low high : UInt8} {rest : List UInt8}
    (hlow : low.toNat ≤ n % 64 + 128) (hhigh : n % 64 + 128 ≤ high.toNat) :
    decodeFrom (some ⟨bits, 1, low, high⟩) (continuation n :: rest) =
      Char.ofNat (bits * 64 + n % 64) :: decodeFrom none rest := by
  rw [decodeFrom, next, if_pos (continuation_mem hlow hhigh)]
  dsimp only
  rw [if_pos (Nat.le_refl 1), toNat_continuation, Nat.add_sub_cancel]
  rfl

theorem start_two {n : Nat} (h : 2 ≤ n) (h' : n < 32) :
    start (UInt8.ofNat (n + 0xC0)) = ([], some ⟨n, 1, 0x80, 0xBF⟩) := by
  interval_cases n <;> rfl

theorem start_three {n : Nat} (h : n < 16) :
    start (UInt8.ofNat (n + 0xE0)) =
      ([], some ⟨n, 2, if n = 0 then 0xA0 else 0x80, if n = 0xD then 0x9F else 0xBF⟩) := by
  interval_cases n <;> rfl

theorem start_four {n : Nat} (h : n ≤ 4) :
    start (UInt8.ofNat (n + 0xF0)) =
      ([], some ⟨n, 3, if n = 0 then 0x90 else 0x80, if n = 4 then 0x8F else 0xBF⟩) := by
  interval_cases n <;> rfl

theorem start_ascii {n : Nat} (h : n < 128) :
    start (UInt8.ofNat n) = ([Char.ofNat n], none) := by
  have hn : (UInt8.ofNat n).toNat = n := by
    rw [UInt8.toNat_ofNat']
    omega
  have hlt : UInt8.ofNat n < 0x80 := by
    rw [UInt8.lt_iff_toNat_lt, hn]
    exact h
  rw [start, if_pos hlt, hn]

/-- The bytes of a character are decoded to it. -/
theorem decodeFrom_charBytes (c : Char) (rest : List UInt8) :
    decodeFrom none (charBytes c ++ rest) = c :: decodeFrom none rest := by
  have hofNat : Char.ofNat c.val.toNat = c := Char.ofNat_toNat c
  have hvalid : c.val.toNat < 0xD800 ∨ (0xDFFF < c.val.toNat ∧ c.val.toNat < 0x110000) := c.valid
  unfold charBytes String.utf8EncodeChar
  dsimp only
  generalize c.val.toNat = v at hofNat hvalid
  split
  · rw [List.singleton_append, decodeFrom, start_ascii (by omega), hofNat]
    rfl
  split
  · rw [Nat.mod_eq_of_lt (by omega : v / 64 < 0x20)]
    change decodeFrom none (UInt8.ofNat (v / 64 + 0xC0) :: continuation v :: rest) = _
    rw [decodeFrom, start_two (by omega) (by omega)]
    dsimp only
    rw [List.nil_append, decodeFrom_last (by simp) (by simp; omega), ← hofNat]
    congr 2
    omega
  split
  · rw [Nat.mod_eq_of_lt (by omega : v / 4096 < 0x10)]
    change decodeFrom none
      (UInt8.ofNat (v / 4096 + 0xE0) :: continuation (v / 64) :: continuation v :: rest) = _
    rw [decodeFrom, start_three (by omega)]
    dsimp only
    rw [List.nil_append, decodeFrom_more (by split <;> simp; omega) (by split <;> simp; all_goals omega)
      (Nat.le_refl 2), decodeFrom_last (by simp) (by simp; omega), ← hofNat]
    congr 2
    omega
  · rw [Nat.mod_eq_of_lt (by omega : v / 262144 < 0x08)]
    change decodeFrom none (UInt8.ofNat (v / 262144 + 0xF0) :: continuation (v / 4096) ::
      continuation (v / 64) :: continuation v :: rest) = _
    rw [decodeFrom, start_four (by omega)]
    dsimp only
    rw [List.nil_append, decodeFrom_more (by split <;> simp; omega) (by split <;> simp; all_goals omega)
      (by omega), decodeFrom_more (by simp) (by simp; omega) (by omega),
      decodeFrom_last (by simp) (by simp; omega), ← hofNat]
    congr 2
    omega

theorem decodeFrom_bytesOf (cs : List Char) : decodeFrom none (bytesOf cs) = cs := by
  induction cs with
  | nil => rfl
  | cons c cs ih => rw [bytesOf_cons, decodeFrom_charBytes, ih]

theorem charBytes_inj {c d : Char} (h : charBytes c = charBytes d) : c = d := by
  have hone : ∀ x : Char, decodeFrom none (charBytes x) = [x] := fun x => by
    have := decodeFrom_charBytes x []
    rwa [List.append_nil] at this
  have hdec := congrArg (decodeFrom none) h
  rw [hone, hone] at hdec
  exact (List.cons.inj hdec).1

/-- An ASCII byte is among the bytes of one character only. -/
theorem eq_of_mem_charBytes {c d : Char} {b : UInt8} (hc : b ∈ charBytes c) (hd : charBytes d = [b])
    (h : b.toNat < 128) : c = d := by
  exact charBytes_inj ((charBytes_eq_of_mem hc h).trans hd.symm)

/-- The bytes of a text are decoded to it. -/
theorem decodeLossy_bytesOf (cs : List Char) : decodeLossy (bytesOf cs) = String.ofList cs := by
  rw [decodeLossy, decodeFrom_bytesOf]

end JavaFold.Utf8
