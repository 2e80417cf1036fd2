/-!
# Decimal numbers

A number is written with the fewest digits, and a minus sign if it is negative.  Reading takes all
the digits there are; a number that does not begin with a digit, or has a zero before another
digit, is refused.

    readNat (ofNat n ++ r) = some (n, r)            if r does not begin with a digit
                                                                       (readNat_ofNat)
    readInt64 (ofInt i.toInt ++ r) = some (i, r)    likewise           (readInt64_ofInt)
-/

namespace BTree.Decimal

/-! ## Algorithm -/

def ofNat (n : Nat) : List Char := Nat.toDigits 10 n

def ofInt (i : Int) : List Char :=
  if i < 0 then '-' :: ofNat i.natAbs else ofNat i.natAbs

/-- The number that the leading digits write, and the rest. -/
def readNat (cs : List Char) : Option (Nat × List Char) :=
  match cs.takeWhile Char.isDigit with
  | [] => none
  | '0' :: _ :: _ => none
  | ds => some (Nat.ofDigitChars 10 ds 0, cs.dropWhile Char.isDigit)

/-- A number with an optional minus sign, and the rest; zero takes no sign. -/
def readInt : List Char → Option (Int × List Char)
  | '-' :: cs =>
    match readNat cs with
    | some (n + 1, r) => some (-(n + 1 : Nat), r)
    | _ => none
  | cs => (readNat cs).map fun (n, r) => (n, r)

/-- A number of 64 bits with a sign, and the rest. -/
def readInt64 (cs : List Char) : Option (Int64 × List Char) :=
  match readInt cs with
  | none => none
  | some (i, r) =>
    if Int64.minValue.toInt ≤ i ∧ i ≤ Int64.maxValue.toInt then some (.ofInt i, r) else none

/-! ## Lemmas -/

theorem takeWhile_isDigit_append {ds r : List Char} (h : ∀ d ∈ ds, d.isDigit = true)
    (hr : ∀ c ∈ r.head?, c.isDigit = false) : (ds ++ r).takeWhile Char.isDigit = ds := by
  rw [List.takeWhile_append_of_pos h]
  cases r with
  | nil => simp
  | cons c r => simp [hr c (by simp)]

theorem dropWhile_isDigit_append {ds r : List Char} (h : ∀ d ∈ ds, d.isDigit = true)
    (hr : ∀ c ∈ r.head?, c.isDigit = false) : (ds ++ r).dropWhile Char.isDigit = r := by
  rw [List.dropWhile_append_of_pos h]
  cases r with
  | nil => simp
  | cons c r => simp [hr c (by simp)]

theorem length_readNat_lt {cs r : List Char} {n : Nat} (h : readNat cs = some (n, r)) :
    r.length < cs.length := by
  have hcs := congrArg List.length (@List.takeWhile_append_dropWhile _ Char.isDigit cs)
  rw [List.length_append] at hcs
  unfold readNat at h
  split at h
  · cases h
  · cases h
  · next hne _ =>
    have : 0 < (cs.takeWhile Char.isDigit).length := List.length_pos_iff.2 hne
    simp only [Option.some.injEq, Prod.mk.injEq] at h
    obtain ⟨-, rfl⟩ := h
    omega

theorem length_readInt_lt {cs r : List Char} {i : Int} (h : readInt cs = some (i, r)) :
    r.length < cs.length := by
  unfold readInt at h
  split at h
  · split at h
    · next hn =>
      have := length_readNat_lt hn
      cases h
      exact Nat.lt_succ_of_lt this
    · cases h
  · obtain ⟨⟨n, r'⟩, hn, h⟩ := Option.map_eq_some_iff.1 h
    cases h
    exact length_readNat_lt hn

theorem length_readInt64_lt {cs r : List Char} {i : Int64} (h : readInt64 cs = some (i, r)) :
    r.length < cs.length := by
  unfold readInt64 at h
  split at h
  · cases h
  · next hi =>
    split at h
    · cases h
      exact length_readInt_lt hi
    · cases h

theorem head?_toDigits_ne_zero {n : Nat} (h : 0 < n) : (Nat.toDigits 10 n).head? ≠ some '0' := by
  induction n using Nat.strongRecOn with
  | ind n ih =>
    by_cases hn : n < 10
    · have : ∀ n, n < 10 → 0 < n → Nat.digitChar n ≠ '0' := by decide
      simpa [Nat.toDigits_of_lt_base hn] using this n hn h
    · have := ih (n / 10) (by omega) (by omega)
      rw [Nat.toDigits_of_base_le (by decide) (by omega), List.head?_append]
      cases hd : Nat.toDigits 10 (n / 10) with
      | nil => exact absurd hd Nat.toDigits_ne_nil
      | cons d ds => simpa [hd] using this

theorem isDigit_of_mem_ofNat {n : Nat} : ∀ c ∈ ofNat n, c.isDigit = true :=
  fun _ h => Nat.isDigit_of_mem_toDigits (by decide) (by decide) h

/-- A number begins with a digit or a minus sign. -/
theorem exists_ofInt (i : Int) :
    ∃ c cs, ofInt i = c :: cs ∧ (c = '-' ∨ c.isDigit = true) := by
  unfold ofInt
  split
  · exact ⟨'-', _, rfl, .inl rfl⟩
  · cases hd : ofNat i.natAbs with
    | nil => exact absurd hd Nat.toDigits_ne_nil
    | cons d ds => exact ⟨d, ds, rfl, .inr (isDigit_of_mem_ofNat d (hd ▸ List.mem_cons_self))⟩

/-- A number reads back as it was written. -/
theorem readNat_ofNat (n : Nat) {r : List Char} (hr : ∀ c ∈ r.head?, c.isDigit = false) :
    readNat (ofNat n ++ r) = some (n, r) := by
  rw [readNat, takeWhile_isDigit_append isDigit_of_mem_ofNat hr,
    dropWhile_isDigit_append isDigit_of_mem_ofNat hr]
  split
  · next h => exact absurd h Nat.toDigits_ne_nil
  · next d ds h =>
    rcases Nat.eq_zero_or_pos n with rfl | hn
    · cases h
    · exact absurd (by rw [ofNat] at h; rw [h]; rfl) (head?_toDigits_ne_zero hn)
  · rw [ofNat, Nat.ofDigitChars_toDigits (by decide) (by decide)]

theorem readInt_ofInt (i : Int) {r : List Char} (hr : ∀ c ∈ r.head?, c.isDigit = false) :
    readInt (ofInt i ++ r) = some (i, r) := by
  unfold ofInt
  split
  · next h =>
    obtain ⟨n, hn⟩ := Nat.exists_eq_succ_of_ne_zero (Int.natAbs_ne_zero.2 (Int.ne_of_lt h))
    rw [List.cons_append, readInt, readNat_ofNat _ hr, hn]
    simp only [Option.some.injEq, Prod.mk.injEq, and_true]
    omega
  · next h =>
    rw [readInt]
    · rw [readNat_ofNat _ hr]
      simp only [Option.map_some, Option.some.injEq, Prod.mk.injEq, and_true]
      omega
    · intro cs hcs
      cases hd : ofNat i.natAbs with
      | nil => exact absurd hd Nat.toDigits_ne_nil
      | cons d ds =>
        rw [hd, List.cons_append, List.cons.injEq] at hcs
        have := isDigit_of_mem_ofNat d (hd ▸ List.mem_cons_self)
        rw [hcs.1] at this
        exact absurd this (by decide)

/-- A number of 64 bits reads back as it was written. -/
theorem readInt64_ofInt (i : Int64) {r : List Char} (hr : ∀ c ∈ r.head?, c.isDigit = false) :
    readInt64 (ofInt i.toInt ++ r) = some (i, r) := by
  have h : Int64.minValue.toInt ≤ i.toInt ∧ i.toInt ≤ Int64.maxValue.toInt :=
    ⟨Int64.le_toInt i, Int64.toInt_le i⟩
  simp only [readInt64, readInt_ofInt _ hr, if_pos h, Int64.ofInt_toInt]

end BTree.Decimal
