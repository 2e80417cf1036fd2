import BTree.Json.Tree
import BTree.Proofs.Equality

/-!
# Maps read back from their text

A key is written with a quote at its head and read back from before anything; a value is read back
from before a comma or the closing brace.  So the pairs that are read are those that were written,
in their order.  That is all a codec has to do: the keys of a sound tree ascend, so that every pair
inserted comes behind the ones before it, whatever shape the tree has that was written:

    readField (writeField p ++ r) = some (p, r)                             (readField_writeField)
    readPairs (writePairs ps) = (ps, none), so that Json.codec is lawful    (lawful_codec)
    c.Lawful → decode c (t.encode c) = done (ok s) es with the list of t    (Sound.roundTrips)
-/

namespace BTree

variable {κ ν : Type}

namespace Json

/-! ## Keys and values -/

/-- A key begins with a quote, and reads back whatever follows. -/
class Key.Lawful (α : Type) [Key α] : Prop where
  exists_write (a : α) : ∃ cs, Key.write a = '"' :: cs
  read_write (a : α) (r : List Char) : Key.read (Key.write a ++ r) = some (a, r)

/-- What may follow a field. -/
def EndsField (r : List Char) : Prop := ∀ c ∈ r.head?, c = ',' ∨ c = '\x7d'

/-- A value does not begin with a blank, and reads back if its field ends there. -/
class Value.Lawful (α : Type) [Value α] : Prop where
  skipBlanks_write (v : α) (r : List Char) :
    skipBlanks (Value.write v ++ r) = Value.write v ++ r
  read_write (v : α) {r : List Char} (hr : EndsField r) :
    Value.read (Value.write v ++ r) = some (v, r)

theorem skipBlanks_cons {c : Char} (hc : isBlank c = false) (cs : List Char) :
    skipBlanks (c :: cs) = c :: cs :=
  List.dropWhile_cons_of_neg (by rw [hc]; decide)

instance : Key.Lawful Int64 where
  exists_write i := ⟨Decimal.ofInt i.toInt ++ ['"'], rfl⟩
  read_write i r := by
    show readQuotedInt ('"' :: Decimal.ofInt i.toInt ++ ['"'] ++ r) = some (i, r)
    have hread : Decimal.readInt64 (Decimal.ofInt i.toInt ++ '"' :: r) = some (i, '"' :: r) := by
      refine Decimal.readInt64_ofInt i fun c hc => ?_
      obtain rfl : '"' = c := Option.some.inj hc
      decide
    simp [readQuotedInt, hread]

instance : Key.Lawful String where
  exists_write s := ⟨s.toList.flatMap escape ++ ['"'], rfl⟩
  read_write := readText_writeText

instance {α : Type} [Key α] [Key.Lawful α] : Key.Lawful (Descending α) where
  exists_write a := Key.Lawful.exists_write a.val
  read_write a r := by
    show (Key.read (Key.write a.val ++ r)).map _ = _
    rw [Key.Lawful.read_write a.val r]
    rfl

instance : Key.Lawful Caseless where
  exists_write s := Key.Lawful.exists_write s.spelling
  read_write s r := by
    show (readText (writeText s.spelling ++ r)).map _ = _
    rw [readText_writeText]
    rfl

/-- A number ends where a field may end. -/
theorem readWhole_ofInt (i : Int64) {r : List Char} (hr : EndsField r) :
    readWhole (Decimal.ofInt i.toInt ++ r) = some (i, r) := by
  have hdigit : ∀ c ∈ r.head?, c.isDigit = false := by
    intro c hc
    rcases hr c hc with rfl | rfl <;> decide
  have hends : continuesNumber r = false := by
    cases r with
    | nil => rfl
    | cons c r => rcases hr c rfl with rfl | rfl <;> rfl
  simp [readWhole, Decimal.readInt64_ofInt i hdigit, hends]

theorem isBlank_eq_false {c : Char} (hc : c = '-' ∨ c.isDigit = true) : isBlank c = false := by
  rcases hc with rfl | hdigit
  · decide
  · rw [Bool.eq_false_iff]
    intro hblank
    have hc : ((c = ' ' ∨ c = '\n') ∨ c = '\t') ∨ c = '\r' := by simpa [isBlank] using hblank
    rcases hc with ((rfl | rfl) | rfl) | rfl <;> revert hdigit <;> decide

instance : Value.Lawful Scalar where
  skipBlanks_write v r := by
    cases v with
    | int i =>
      obtain ⟨c, cs, hi, hc⟩ := Decimal.exists_ofInt i.toInt
      show skipBlanks (Decimal.ofInt i.toInt ++ r) = Decimal.ofInt i.toInt ++ r
      rw [hi]
      exact skipBlanks_cons (isBlank_eq_false hc) (cs ++ r)
    | text s => exact skipBlanks_cons (by decide) _
  read_write v r hr := by
    cases v with
    | int i =>
      show readScalar (Decimal.ofInt i.toInt ++ r) = some (.int i, r)
      obtain ⟨c, cs, hi, hc⟩ := Decimal.exists_ofInt i.toInt
      have hquote : ∀ ds, Decimal.ofInt i.toInt ++ r ≠ '"' :: ds := by
        rintro ds hds
        rw [hi] at hds
        obtain rfl : c = '"' := (List.cons.inj hds).1
        revert hc
        decide
      rw [readScalar]
      · rw [readWhole_ofInt i hr]
        rfl
      · exact hquote
    | text s =>
      show (readText (writeText s ++ r)).map _ = _
      rw [readText_writeText]
      rfl

/-! ## Fields -/

section
variable [Key κ] [Value ν]

/-- What follows a field decides how reading goes on. -/
theorem readFields_eq {cs r : List Char} {p : κ × ν} (hp : readField cs = some (p, r)) :
    readFields cs =
      match skipBlanks r with
      | ',' :: next => (p :: (readFields next).1, (readFields next : List (κ × ν) × _).2)
      | '\x7d' :: r => ([p], readEnd r)
      | _ => ([p], some .malformed) := by
  rw [readFields]
  split
  · next hnone =>
    rw [hp] at hnone
    cases hnone
  · next q s hq =>
    obtain ⟨rfl, rfl⟩ := Prod.mk.inj (Option.some.inj (hp.symm.trans hq))
    split <;> next hr => simp only [hr]

variable [Key.Lawful κ]

/-- Fields begin with the quote of the first key. -/
theorem exists_intercalate_writeField (p : κ × ν) (ps : List (κ × ν)) :
    ∃ cs, [','].intercalate ((p :: ps).map writeField) = '"' :: cs := by
  obtain ⟨cs, hcs⟩ := Key.Lawful.exists_write p.1
  have hp : writeField p = '"' :: (cs ++ ':' :: Value.write p.2) := by
    rw [writeField, hcs, List.cons_append]
  cases ps with
  | nil => exact ⟨_, by rw [List.map_cons, List.map_nil, List.intercalate_singleton, hp]⟩
  | cons q qs =>
    rw [List.map_cons, List.map_cons, List.intercalate_cons_cons, hp]
    exact ⟨_, rfl⟩

variable [Value.Lawful ν]

/-- A field reads back as it was written. -/
theorem readField_writeField (p : κ × ν) {r : List Char} (hr : EndsField r) :
    readField (writeField p ++ r) = some (p, r) := by
  obtain ⟨k, v⟩ := p
  have hblanks : skipBlanks (writeField (k, v) ++ r) =
      Key.write k ++ (':' :: (Value.write v ++ r)) := by
    obtain ⟨cs, hcs⟩ := Key.Lawful.exists_write k
    rw [writeField, hcs]
    simp [skipBlanks_cons (c := '"') (by decide)]
  have hcolon : skipBlanks (':' :: (Value.write v ++ r)) = ':' :: (Value.write v ++ r) :=
    skipBlanks_cons (by decide) _
  simp only [readField, hblanks, Key.Lawful.read_write, hcolon, Value.Lawful.skipBlanks_write,
    Value.Lawful.read_write v hr, Option.map_some]

/-- Fields read back as they were written, up to the closing brace. -/
theorem readFields_writeField (p : κ × ν) (ps : List (κ × ν)) :
    readFields ([','].intercalate ((p :: ps).map writeField) ++ ['\x7d']) = (p :: ps, none) := by
  induction ps generalizing p with
  | nil =>
    have hp : readField (writeField p ++ ['\x7d']) = some (p, ['\x7d']) :=
      readField_writeField p fun c hc => .inr (Option.some.inj hc).symm
    rw [List.map_cons, List.map_nil, List.intercalate_singleton, readFields_eq hp]
    rfl
  | cons q qs ih =>
    have hp (r : List Char) : readField (writeField p ++ ',' :: r) = some (p, ',' :: r) :=
      readField_writeField p fun c hc => .inl (Option.some.inj hc).symm
    have hcomma (r : List Char) : skipBlanks (',' :: r) = ',' :: r := skipBlanks_cons (by decide) r
    have hfields : [','].intercalate ((p :: q :: qs).map writeField) ++ ['\x7d'] =
        writeField p ++ ',' :: ([','].intercalate ((q :: qs).map writeField) ++ ['\x7d']) := by
      rw [List.map_cons, List.map_cons, List.intercalate_cons_cons]
      simp
    rw [hfields, readFields_eq (hp _), hcomma]
    simp only [ih q]

/-- Pairs read back as they were written, and nothing is wrong with the text. -/
theorem lawful_codec : (codec : Codec κ ν (List Char) Refusal).Lawful := by
  intro ps
  show readPairs (writePairs ps) = (ps, none)
  cases ps with
  | nil => rfl
  | cons p ps =>
    obtain ⟨cs, hcs⟩ := exists_intercalate_writeField p ps
    have hread := readFields_writeField p ps
    rw [hcs] at hread
    have hbrace : skipBlanks (writePairs (p :: ps)) = '\x7b' :: ('"' :: cs ++ ['\x7d']) := by
      rw [writePairs, hcs]
      exact skipBlanks_cons (by decide) _
    have hquote : skipBlanks ('"' :: cs ++ ['\x7d']) = '"' :: cs ++ ['\x7d'] :=
      skipBlanks_cons (by decide) _
    simp only [readPairs, hbrace, hquote]
    exact hread

example : writePairs [((⟨-5⟩ : Descending Int64), Scalar.text "a\n"), (⟨-7⟩, .int 1)] =
    "\x7b\"-5\":\"a\\n\",\"-7\":1\x7d".toList := by decide

end

end Json

namespace Tree

/-- The text of a tree reads back: the tree that comes of it has the standard degree, passes its
check and holds the same pairs in the same order, so that it is equal and has the same text. -/
def RoundTrips {σ ρ : Type} [Ord κ] [BEq ν] (c : Codec κ ν σ ρ) (t : Tree κ ν) : Prop :=
  ∃ s es, decode c (t.encode c) = .done (.ok s) es ∧ s.entries = t.entries ∧
    s.degree = .standard ∧ s.Sound ∧ s.check = .ok () ∧ (s == t) = true ∧ s.encode c = t.encode c

/-- A sound tree of any degree and shape reads back from its text, if the codec is lawful. -/
theorem Sound.roundTrips {σ ρ : Type} [Ord κ] [Std.TransOrd κ] [BEq ν] [ReflBEq ν]
    {c : Codec κ ν σ ρ} (hc : c.Lawful) {t : Tree κ ν} (h : t.Sound) : t.RoundTrips c := by
  obtain ⟨s, es, heq, hsound, hdegree, hlist⟩ := ofList_spec (t.toList.map Entry.toPair)
  -- read in the order of the text, each pair comes behind those inserted before it
  have hasc : Ascending ([] ++ t.toList) := h.ascending
  have hlist : s.toList = t.toList := hlist.trans (Association.insertMany_toPair hasc)
  have hentries : s.entries = t.entries := by rw [hsound.entries_eq, h.entries_eq, hlist]
  have hdegree : s.degree = .standard := hdegree
  have hcheck : s.check = .ok () := hsound.check_eq_ok (hdegree ▸ inWord_standard)
  refine ⟨s, es, ?_, hentries, hdegree, hsound, hcheck, ?_, ?_⟩
  · rw [decode, encode, hc, h.entries_eq]
    simp only [heq, Edit.done_bind, Edit.pure_eq_done, Edit.done_after, List.append_nil]
  · rw [hsound.beq_iff h, hlist]
    exact List.forall₂_same.2 fun e _ => .refl e
  · rw [encode, hentries, encode]

/-- Whatever way a map of numbers or strings was made, in either order of numbers and with or without
regard to case, its text reads back as an equal map of the same pairs. -/
theorem Reachable.json_reads_back :
    (∀ t : Tree Int64 Scalar, t.Reachable → t.RoundTrips Json.codec) ∧
    (∀ t : Tree (Descending Int64) Scalar, t.Reachable → t.RoundTrips Json.codec) ∧
    (∀ t : Tree String Scalar, t.Reachable → t.RoundTrips Json.codec) ∧
    ∀ t : Tree Caseless Scalar, t.Reachable → t.RoundTrips Json.codec :=
  ⟨fun _ h => h.sound.roundTrips Json.lawful_codec,
    fun _ h => h.sound.roundTrips Json.lawful_codec,
    fun _ h => h.sound.roundTrips Json.lawful_codec,
    fun _ h => h.sound.roundTrips Json.lawful_codec⟩

/-- The least and the greatest number as keys in either order, and strings that need escapes. -/
theorem json_reads_back_of_escapes :
    (∃ t : Tree Int64 Scalar, t.Reachable ∧ t.degree.least = 2 ∧
      t.toList = [⟨Int64.minValue, .text "1"⟩, ⟨0, .int 1⟩, ⟨Int64.maxValue, .int Int64.minValue⟩] ∧
      t.RoundTrips Json.codec) ∧
    (∃ t : Tree (Descending Int64) Scalar, t.Reachable ∧ t.degree.least = 3 ∧
      t.toList = [⟨⟨Int64.maxValue⟩, .text ""⟩, ⟨⟨Int64.minValue⟩, .int (-1)⟩] ∧
      t.RoundTrips Json.codec) ∧
    (∃ t : Tree String Scalar, t.Reachable ∧ t.degree.least = 6 ∧
      t.toList = [⟨"", .int 0⟩, ⟨"\n\x00", .text "\x7d"⟩, ⟨"\"\\", .text "é😀"⟩] ∧
      t.RoundTrips Json.codec) ∧
    ∃ t : Tree Caseless Scalar, t.Reachable ∧ t.degree.least = 2 ∧
      t.toList = [⟨⟨"É\\b"⟩, .text "\t"⟩] ∧ t.RoundTrips Json.codec := by
  obtain ⟨hnumber, hdescending, hstring, hcaseless⟩ := Reachable.json_reads_back
  refine ⟨?_, ?_, ?_, ?_⟩
  · obtain ⟨t, hr, hdegree, hlist⟩ := exists_reachable ⟨2, by decide⟩ (by decide)
      [((0 : Int64), Scalar.int 1), (Int64.maxValue, .int Int64.minValue), (Int64.minValue, .text "1")]
    exact ⟨t, hr, congrArg Degree.least hdegree, hlist.trans (by decide), hnumber t hr⟩
  · obtain ⟨t, hr, hdegree, hlist⟩ := exists_reachable ⟨3, by decide⟩ (by decide)
      [((⟨Int64.minValue⟩ : Descending Int64), Scalar.int (-1)), (⟨Int64.maxValue⟩, .text "")]
    exact ⟨t, hr, congrArg Degree.least hdegree, hlist.trans (by decide), hdescending t hr⟩
  · obtain ⟨t, hr, hdegree, hlist⟩ := exists_reachable ⟨6, by decide⟩ (by decide)
      [("\"\\", Scalar.text "é😀"), ("", .int 0), ("\n\x00", .text "\x7d")]
    exact ⟨t, hr, congrArg Degree.least hdegree, hlist.trans (by decide), hstring t hr⟩
  · obtain ⟨t, hr, hdegree, hlist⟩ := exists_reachable ⟨2, by decide⟩ (by decide)
      [((⟨"É\\b"⟩ : Caseless), Scalar.int 1), (⟨"É\\B"⟩, .text "\t")]
    have heq : compare (⟨"É\\B"⟩ : Caseless) ⟨"É\\b"⟩ = .eq :=
      (Caseless.compare_eq (a := "É\\b") (b := "É\\b") (by decide) (by decide)).trans
        Std.ReflCmp.compare_self
    refine ⟨t, hr, congrArg Degree.least hdegree, hlist.trans ?_, hcaseless t hr⟩
    rw [Association.insertMany, List.foldl_cons, List.foldl_cons, List.foldl_nil]
    exact Association.insert_cons_of_eq heq

end Tree

end BTree
