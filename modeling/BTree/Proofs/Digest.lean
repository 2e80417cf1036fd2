import BTree.Digest
import BTree.Proofs.Equality
import Mathlib.Algebra.Order.Ring.Nat

/-!
# Digests and equality

Equal maps give the same bytes to hash, if equal keys and equal values do.  The converse asks that
the bytes of keys and values, put in a row without lengths, can be told apart from the front:

    bytes a ++ r = bytes b ++ s  →  a and b are equal, r = s              (Digest.Separates)

Numbers do so because all of them have eight bytes, strings because they end with the first `ff`.
Where numbers and strings are mixed, the bytes of a number can read as a string, so nothing is said
of such maps.
-/

namespace BTree

variable {α κ ν : Type}

namespace Digest

/-- Equal keys give equal bytes. -/
class LawfulKey (κ : Type) [Ord κ] [Digest κ] : Prop where
  bytes_eq {a b : κ} (h : compare a b = .eq) : bytes a = bytes b

/-- Equal values give equal bytes. -/
class LawfulValue (ν : Type) [BEq ν] [Digest ν] : Prop where
  bytes_eq {a b : ν} (h : (a == b) = true) : bytes a = bytes b

/-- Bytes that begin with those of a value in `P` tell which it is, up to `R`, and where it ends. -/
structure Separates [Digest α] (P : α → Prop) (R : α → α → Prop) : Prop where
  ne_nil {a : α} (ha : P a) : bytes a ≠ []
  cancel {a b : α} (ha : P a) (hb : P b) {r s : List UInt8} (h : bytes a ++ r = bytes b ++ s) :
    R a b ∧ r = s

instance [Ord κ] [Std.LawfulEqOrd κ] [Digest κ] : LawfulKey κ where
  bytes_eq h := congrArg bytes (Std.LawfulEqCmp.eq_of_compare h)

instance [Ord κ] [Digest κ] [LawfulKey κ] [Std.OrientedOrd κ] : LawfulKey (Descending κ) where
  bytes_eq h := (LawfulKey.bytes_eq (κ := κ) h).symm

instance : LawfulKey Caseless where
  bytes_eq {a b} h := by
    have h : compare a.folded b.folded = .eq := h
    exact congrArg ofString (Std.LawfulEqCmp.eq_of_compare h)

instance [BEq ν] [LawfulBEq ν] [Digest ν] : LawfulValue ν where
  bytes_eq h := congrArg bytes (eq_of_beq h)

/-! ## Numbers -/

@[simp]
theorem length_littleEndian (w n : Nat) : (littleEndian w n).length = w := by
  induction w generalizing n with
  | zero => rfl
  | succ w ih => rw [littleEndian, List.length_cons, ih]

theorem littleEndian_injective {w m n : Nat} (hm : m < 256 ^ w) (hn : n < 256 ^ w)
    (h : littleEndian w m = littleEndian w n) : m = n := by
  induction w generalizing m n with
  | zero => omega
  | succ w ih =>
    obtain ⟨hlow, hhigh⟩ := List.cons.inj h
    have hdiv {n : Nat} (hn : n < 256 ^ (w + 1)) : n / 256 < 256 ^ w :=
      (Nat.div_lt_iff_lt_mul (by decide)).2 (by rwa [Nat.pow_succ] at hn)
    have hquot : m / 256 = n / 256 := ih (hdiv hm) (hdiv hn) hhigh
    have hrem : m % 256 = n % 256 := by
      have := congrArg UInt8.toNat hlow
      rwa [UInt8.toNat_ofNat', UInt8.toNat_ofNat'] at this
    omega

theorem separates_int64 : Separates (fun _ : Int64 => True) Eq where
  ne_nil _ := nofun
  cancel {m n} _ _ r s h := by
    obtain ⟨hbytes, hrest⟩ := List.append_inj h (by
      show (littleEndian 8 _).length = (littleEndian 8 _).length
      rw [length_littleEndian, length_littleEndian])
    have hnat := littleEndian_injective m.toUInt64.toNat_lt n.toUInt64.toNat_lt hbytes
    obtain ⟨m⟩ := m
    obtain ⟨n⟩ := n
    exact ⟨congrArg Int64.ofUInt64 (UInt64.toNat_inj.1 hnat), hrest⟩

/-! ## Strings -/

/-- No byte of UTF-8 is `ff`. -/
theorem ne_of_mem_utf8EncodeChar {c : Char} {b : UInt8} (hb : b ∈ String.utf8EncodeChar c) :
    b ≠ 0xff := by
  have hsmall {n : Nat} (hn : n < 255) : UInt8.ofNat n ≠ 0xff := by
    intro h
    have := congrArg UInt8.toNat h
    rw [UInt8.toNat_ofNat'] at this
    have hff : (0xff : UInt8).toNat = 255 := rfl
    omega
  simp only [String.utf8EncodeChar] at hb
  split_ifs at hb <;> simp only [List.mem_cons, List.not_mem_nil, or_false] at hb
  · rw [hb]
    exact hsmall (by omega)
  · rcases hb with rfl | rfl <;> exact hsmall (by omega)
  · rcases hb with rfl | rfl | rfl <;> exact hsmall (by omega)
  · rcases hb with rfl | rfl | rfl | rfl <;> exact hsmall (by omega)

/-- The UTF-8 bytes tell the characters. -/
theorem flatMap_utf8EncodeChar_injective {cs ds : List Char}
    (h : cs.flatMap String.utf8EncodeChar = ds.flatMap String.utf8EncodeChar) : cs = ds := by
  have hbytes : (String.ofList cs).toByteArray = (String.ofList ds).toByteArray := by
    rw [String.toByteArray_ofList, String.toByteArray_ofList, List.utf8Encode, List.utf8Encode, h]
  exact String.ofList_inj.1 (String.toByteArray_inj.1 hbytes)

/-- A closing byte ends what comes before it. -/
theorem append_cons_inj {b : UInt8} {u v r s : List UInt8} (hu : b ∉ u) (hv : b ∉ v)
    (h : u ++ b :: r = v ++ b :: s) : u = v ∧ r = s := by
  have hlength : u.length = v.length := by
    have hindex := congrArg (List.idxOf b) h
    rwa [List.idxOf_append_of_notMem hu, List.idxOf_append_of_notMem hv, List.idxOf_cons_self,
      List.idxOf_cons_self] at hindex
  obtain ⟨huv, hrest⟩ := List.append_inj h hlength
  exact ⟨huv, (List.cons.inj hrest).2⟩

theorem separates_string : Separates (fun _ : String => True) Eq where
  ne_nil _ := List.append_ne_nil_of_right_ne_nil _ (List.cons_ne_nil _ _)
  cancel {s t} _ _ u v h := by
    have hff (s : String) : (0xff : UInt8) ∉ s.toList.flatMap String.utf8EncodeChar := by
      intro hmem
      obtain ⟨c, -, hc⟩ := List.mem_flatMap.1 hmem
      exact ne_of_mem_utf8EncodeChar hc rfl
    have h : ofString s ++ u = ofString t ++ v := h
    simp only [ofString, List.append_assoc, List.singleton_append] at h
    obtain ⟨hbytes, hrest⟩ := append_cons_inj (hff s) (hff t) h
    exact ⟨String.toList_inj.1 (flatMap_utf8EncodeChar_injective hbytes), hrest⟩

/-! ## Keys and values -/

/-- Values with the bytes of others that separate do so too. -/
theorem Separates.comap {β : Type} [Digest α] [Digest β] {P : α → Prop} {R : α → α → Prop}
    {Q : β → Prop} {S : β → β → Prop} (h : Separates P R) (f : β → α)
    (hQ : ∀ b, Q b → P (f b) ∧ bytes b = bytes (f b))
    (hS : ∀ a b, Q a → Q b → R (f a) (f b) → S a b) : Separates Q S where
  ne_nil {b} hb := by
    rw [(hQ b hb).2]
    exact h.ne_nil (hQ b hb).1
  cancel {a b} ha hb r s heq := by
    rw [(hQ a ha).2, (hQ b hb).2] at heq
    obtain ⟨hab, hrest⟩ := h.cancel (hQ a ha).1 (hQ b hb).1 heq
    exact ⟨hS a b ha hb hab, hrest⟩

/-- Any two keys are told apart by their bytes, unless they are equal. -/
def SeparatesKeys (κ : Type) [Ord κ] [Digest κ] : Prop :=
  Separates (fun _ : κ => True) fun a b => compare a b = .eq

/-- Values that hold of `P` are told apart by their bytes, unless they are equal. -/
def SeparatesValues [BEq ν] [Digest ν] (P : ν → Prop) : Prop :=
  Separates P fun v w => (v == w) = true

theorem Separates.keys [Ord κ] [Std.TransOrd κ] [Digest κ]
    (h : Separates (fun _ : κ => True) Eq) : SeparatesKeys κ :=
  h.comap id (fun _ _ => ⟨trivial, rfl⟩) fun a b _ _ hab => by
    obtain rfl : a = b := hab
    exact Std.ReflCmp.compare_self

theorem SeparatesKeys.descending [Ord κ] [Std.TransOrd κ] [Digest κ] (h : SeparatesKeys κ) :
    SeparatesKeys (Descending κ) :=
  Separates.comap h Descending.val (fun _ _ => ⟨trivial, rfl⟩) fun _ _ _ _ hab =>
    Std.OrientedCmp.eq_symm hab

theorem separatesKeys_caseless : SeparatesKeys Caseless :=
  separates_string.keys.comap Caseless.folded (fun _ _ => ⟨trivial, rfl⟩) fun _ _ _ _ hab => hab

theorem Separates.values [BEq ν] [ReflBEq ν] [Digest ν] {P : ν → Prop}
    (h : Separates (fun _ : ν => True) Eq) : SeparatesValues P :=
  h.comap id (fun _ _ => ⟨trivial, rfl⟩) fun v w _ _ hvw => by
    obtain rfl : v = w := hvw
    exact BEq.rfl

end Digest

namespace Scalar

def IsInt (v : Scalar) : Prop := ∃ n, v = .int n

def IsText (v : Scalar) : Prop := ∃ s, v = .text s

/-- The number that the value is, zero for a string. -/
def number : Scalar → Int64
  | int n => n
  | text _ => 0

/-- The string that the value is, empty for a number. -/
def letters : Scalar → String
  | int _ => ""
  | text s => s

open Digest

theorem separatesValues_isInt : SeparatesValues IsInt := by
  refine separates_int64.comap number ?_ ?_
  · rintro v ⟨n, rfl⟩
    exact ⟨trivial, rfl⟩
  · rintro v w ⟨m, rfl⟩ ⟨n, rfl⟩ (rfl : m = n)
    exact BEq.rfl

theorem separatesValues_isText : SeparatesValues IsText := by
  refine separates_string.comap letters ?_ ?_
  · rintro v ⟨s, rfl⟩
    exact ⟨trivial, rfl⟩
  · rintro v w ⟨s, rfl⟩ ⟨t, rfl⟩ (rfl : s = t)
    exact BEq.rfl

end Scalar

/-! ## Entries -/

section
variable [Ord κ] [BEq ν] [Digest κ] [Digest ν] {es fs : List (Entry κ ν)}

theorem Entry.Same.flatMap_bytes_eq [Digest.LawfulKey κ] [Digest.LawfulValue ν]
    (h : List.Forall₂ Entry.Same es fs) :
    (es.flatMap fun e => Digest.bytes e.key ++ Digest.bytes e.value) =
      fs.flatMap fun e => Digest.bytes e.key ++ Digest.bytes e.value := by
  induction h with
  | nil => rfl
  | cons hef _ ih =>
    rw [List.flatMap_cons, List.flatMap_cons, ih, Digest.LawfulKey.bytes_eq hef.key,
      Digest.LawfulValue.bytes_eq hef.value]

/-- Entries are read off their bytes one by one. -/
theorem Entry.Same.of_flatMap_bytes_eq {P : ν → Prop} (hκ : Digest.SeparatesKeys κ)
    (hν : Digest.SeparatesValues P) (hes : ∀ e ∈ es, P e.value) (hfs : ∀ f ∈ fs, P f.value)
    (h : (es.flatMap fun e => Digest.bytes e.key ++ Digest.bytes e.value) =
      fs.flatMap fun e => Digest.bytes e.key ++ Digest.bytes e.value) :
    List.Forall₂ Entry.Same es fs := by
  induction es generalizing fs with
  | nil =>
    cases fs with
    | nil => exact .nil
    | cons f fs =>
      have hnil := (List.append_eq_nil_iff.1 (List.append_eq_nil_iff.1 h.symm).1).1
      exact absurd hnil (hκ.ne_nil trivial)
  | cons e es ih =>
    cases fs with
    | nil =>
      have hnil := (List.append_eq_nil_iff.1 (List.append_eq_nil_iff.1 h).1).1
      exact absurd hnil (hκ.ne_nil trivial)
    | cons f fs =>
      obtain ⟨hev, hes⟩ := List.forall_mem_cons.1 hes
      obtain ⟨hfv, hfs⟩ := List.forall_mem_cons.1 hfs
      rw [List.flatMap_cons, List.flatMap_cons, List.append_assoc, List.append_assoc] at h
      obtain ⟨hkey, hrest⟩ := hκ.cancel trivial trivial h
      obtain ⟨hvalue, hrest⟩ := hν.cancel hev hfv hrest
      exact .cons ⟨hkey, hvalue⟩ (ih hes hfs hrest)

end

/-! ## Trees -/

namespace Tree

variable [Ord κ] [Digest κ] [Digest ν]

theorem Sound.digest_eq {t : Tree κ ν} (h : t.Sound) :
    t.digest = t.toList.flatMap fun e => Digest.bytes e.key ++ Digest.bytes e.value := by
  rw [digest, h.entries_eq]

variable [BEq ν]

theorem Sound.digest_congr [Digest.LawfulKey κ] [Digest.LawfulValue ν] {s t : Tree κ ν}
    (hs : s.Sound) (ht : t.Sound) (h : (s == t) = true) : s.digest = t.digest := by
  rw [hs.digest_eq, ht.digest_eq]
  exact Entry.Same.flatMap_bytes_eq ((hs.beq_iff ht).1 h)

theorem Sound.beq_of_digest {P : ν → Prop} (hκ : Digest.SeparatesKeys κ)
    (hν : Digest.SeparatesValues P) {s t : Tree κ ν} (hs : s.Sound) (ht : t.Sound)
    (hps : ∀ e ∈ s.entries, P e.value) (hpt : ∀ e ∈ t.entries, P e.value)
    (h : s.digest = t.digest) : (s == t) = true := by
  rw [hs.entries_eq] at hps
  rw [ht.entries_eq] at hpt
  rw [hs.digest_eq, ht.digest_eq] at h
  rw [hs.beq_iff ht]
  exact Entry.Same.of_flatMap_bytes_eq hκ hν hps hpt h

/-- Two maps whose values are all in `P` are equal just if they give the same bytes. -/
def DigestDecides (κ : Type) [Ord κ] [Digest κ] (P : ν → Prop) : Prop :=
  ∀ s t : Tree κ ν, s.Reachable → t.Reachable → (∀ e ∈ s.entries, P e.value) →
    (∀ e ∈ t.entries, P e.value) → ((s == t) = true ↔ s.digest = t.digest)

theorem DigestDecides.of_separates [Std.TransOrd κ] [Digest.LawfulKey κ] [Digest.LawfulValue ν]
    {P : ν → Prop} (hκ : Digest.SeparatesKeys κ) (hν : Digest.SeparatesValues P) :
    DigestDecides κ P :=
  fun _ _ hs ht hps hpt =>
    ⟨hs.sound.digest_congr ht.sound, hs.sound.beq_of_digest hκ hν ht.sound hps hpt⟩

/-- Equal maps give the same bytes to hash, whatever their degrees and shapes and the spellings of
their keys.  Maps of numbers under numbers that give the same bytes are equal, and so are maps of
strings under strings, with or without regard to case. -/
theorem digest_laws :
    (∀ (κ ν : Type) [Ord κ] [Std.TransOrd κ] [BEq ν] [Digest κ] [Digest ν] [Digest.LawfulKey κ]
      [Digest.LawfulValue ν] (s t : Tree κ ν), s.Reachable → t.Reachable → (s == t) = true →
      s.digest = t.digest) ∧
    (∀ s t : Tree Caseless Scalar, s.Reachable → t.Reachable → (s == t) = true →
      s.digest = t.digest) ∧
    (DigestDecides Int64 Scalar.IsInt ∧ DigestDecides (Descending Int64) Scalar.IsInt ∧
      DigestDecides String Scalar.IsText ∧ DigestDecides Caseless Scalar.IsText) ∧
    DigestDecides Int64 (fun _ : Int64 => True) ∧
    DigestDecides (Descending Int64) (fun _ : Int64 => True) ∧
    DigestDecides String (fun _ : String => True) ∧
    DigestDecides Caseless (fun _ : String => True) := by
  have hnumber : Digest.SeparatesKeys Int64 := Digest.separates_int64.keys
  have hstring : Digest.SeparatesKeys String := Digest.separates_string.keys
  have hcaseless : Digest.SeparatesKeys Caseless := Digest.separatesKeys_caseless
  refine ⟨fun _ _ _ _ _ _ _ _ _ s t hs ht => hs.sound.digest_congr ht.sound,
    fun s t hs ht => hs.sound.digest_congr ht.sound, ⟨?_, ?_, ?_, ?_⟩, ?_, ?_, ?_, ?_⟩
  · exact .of_separates hnumber Scalar.separatesValues_isInt
  · exact .of_separates hnumber.descending Scalar.separatesValues_isInt
  · exact .of_separates hstring Scalar.separatesValues_isText
  · exact .of_separates hcaseless Scalar.separatesValues_isText
  · exact .of_separates hnumber Digest.separates_int64.values
  · exact .of_separates hnumber.descending Digest.separates_int64.values
  · exact .of_separates hstring Digest.separates_string.values
  · exact .of_separates hcaseless Digest.separates_string.values

/-- Two spellings of a key, in trees of two degrees, give the bytes of their letters in lower case;
the same bytes of numbers and of strings come from equal maps only. -/
theorem digest_laws_of_spellings :
    (∃ s t : Tree Caseless Scalar, s.Reachable ∧ t.Reachable ∧ s.degree.least = 2 ∧
      t.degree.least = 6 ∧ s.toList = [⟨⟨"Ab"⟩, .int 1⟩] ∧ t.toList = [⟨⟨"aB"⟩, .int 1⟩] ∧
      s.digest = [0x61, 0x62, 0xff, 1, 0, 0, 0, 0, 0, 0, 0] ∧ s.digest = t.digest) ∧
    (∃ s t : Tree Int64 Scalar, s.Reachable ∧ t.Reachable ∧ s.degree.least = 2 ∧
      t.degree.least = 3 ∧ s.toList = [⟨-1, .int 256⟩, ⟨0, .int 7⟩] ∧
      s.digest = List.replicate 8 255 ++ [0, 1, 0, 0, 0, 0, 0, 0] ++ List.replicate 8 0 ++
        [7, 0, 0, 0, 0, 0, 0, 0] ∧ s.digest = t.digest ∧ (s == t) = true) ∧
    ∃ s t : Tree String Scalar, s.Reachable ∧ t.Reachable ∧ s.degree.least = 2 ∧
      t.degree.least = 3 ∧ s.toList = [⟨"", .text "é"⟩, ⟨"a", .text ""⟩] ∧
      s.digest = [0xff, 0xc3, 0xa9, 0xff, 0x61, 0xff, 0xff] ∧ s.digest = t.digest ∧
      (s == t) = true := by
  obtain ⟨-, hcongr, ⟨hnumber, -, hstring, -⟩, -⟩ := digest_laws
  refine ⟨?_, ?_, ?_⟩
  · obtain ⟨s, hs, hdegree, hlist⟩ := exists_reachable ⟨2, by decide⟩ (by decide)
      [((⟨"Ab"⟩ : Caseless), Scalar.int 1)]
    obtain ⟨t, ht, hdegree', hlist'⟩ := exists_reachable ⟨6, by decide⟩ (by decide)
      [((⟨"aB"⟩ : Caseless), Scalar.int 1)]
    have hlist : s.toList = [⟨⟨"Ab"⟩, .int 1⟩] := hlist
    have hlist' : t.toList = [⟨⟨"aB"⟩, .int 1⟩] := hlist'
    have hsame : compare (⟨"Ab"⟩ : Caseless) ⟨"aB"⟩ = .eq :=
      (Caseless.compare_eq (a := "ab") (b := "ab") (by decide) (by decide)).trans (by decide)
    have hfolded : (⟨"Ab"⟩ : Caseless).folded.toList = ['a', 'b'] := by
      rw [Caseless.folded, String.toList_map]
      rfl
    have hbeq : (s == t) = true := by
      rw [hs.sound.beq_iff ht.sound, hlist, hlist']
      exact .cons ⟨hsame, BEq.rfl⟩ .nil
    have hdigest : s.digest = [0x61, 0x62, 0xff, 1, 0, 0, 0, 0, 0, 0, 0] := by
      rw [hs.sound.digest_eq, hlist]
      show (Digest.ofString (⟨"Ab"⟩ : Caseless).folded ++ _) ++ _ = _
      rw [Digest.ofString, hfolded]
      decide
    exact ⟨s, t, hs, ht, congrArg Degree.least hdegree, congrArg Degree.least hdegree', hlist,
      hlist', hdigest, hcongr s t hs ht hbeq⟩
  · obtain ⟨s, hs, hdegree, hlist⟩ := exists_reachable ⟨2, by decide⟩ (by decide)
      [((-1 : Int64), Scalar.int 256), (0, .int 7)]
    obtain ⟨t, ht, hdegree', hlist'⟩ := exists_reachable ⟨3, by decide⟩ (by decide)
      [((0 : Int64), Scalar.int 7), (-1, .int 256)]
    have hlist : s.toList = [⟨-1, .int 256⟩, ⟨0, .int 7⟩] := hlist.trans (by decide)
    have hlist' : t.toList = [⟨-1, .int 256⟩, ⟨0, .int 7⟩] := hlist'.trans (by decide)
    have hdigest : s.digest = t.digest := by
      rw [hs.sound.digest_eq, ht.sound.digest_eq, hlist, hlist']
    have hints : ∀ e ∈ [(⟨-1, .int 256⟩ : Entry Int64 Scalar), ⟨0, .int 7⟩], e.value.IsInt := by
      simp [Scalar.IsInt]
    refine ⟨s, t, hs, ht, congrArg Degree.least hdegree, congrArg Degree.least hdegree', hlist, ?_,
      hdigest, (hnumber s t hs ht ?_ ?_).2 hdigest⟩
    · rw [hs.sound.digest_eq, hlist]
      decide
    · rwa [hs.sound.entries_eq, hlist]
    · rwa [ht.sound.entries_eq, hlist']
  · obtain ⟨s, hs, hdegree, hlist⟩ := exists_reachable ⟨2, by decide⟩ (by decide)
      [("a", Scalar.text ""), ("", .text "é")]
    obtain ⟨t, ht, hdegree', hlist'⟩ := exists_reachable ⟨3, by decide⟩ (by decide)
      [("", Scalar.text "é"), ("a", .text "")]
    have hlist : s.toList = [⟨"", .text "é"⟩, ⟨"a", .text ""⟩] := hlist.trans (by decide)
    have hlist' : t.toList = [⟨"", .text "é"⟩, ⟨"a", .text ""⟩] := hlist'.trans (by decide)
    have hdigest : s.digest = t.digest := by
      rw [hs.sound.digest_eq, ht.sound.digest_eq, hlist, hlist']
    have htexts : ∀ e ∈ [(⟨"", .text "é"⟩ : Entry String Scalar), ⟨"a", .text ""⟩],
        e.value.IsText := by
      simp [Scalar.IsText]
    refine ⟨s, t, hs, ht, congrArg Degree.least hdegree, congrArg Degree.least hdegree', hlist, ?_,
      hdigest, (hstring s t hs ht ?_ ?_).2 hdigest⟩
    · rw [hs.sound.digest_eq, hlist]
      decide
    · rwa [hs.sound.entries_eq, hlist]
    · rwa [ht.sound.entries_eq, hlist']

end Tree

end BTree
