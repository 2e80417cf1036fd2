/-!
# Weaving lists around separators

`weave es xss` is the reading order of a node: the first list, the first separator, the second list,
and so on.  A leaf has no lists and reads as its separators; lists beyond the last gap are not read.
-/

namespace BTree

variable {α : Type}

/-- The items of `es` with the lists of `xss` around them, a list before each item and one after
the last. -/
def weave : List α → List (List α) → List α
  | es, [] => es
  | [], xs :: _ => xs
  | e :: es, xs :: xss => xs ++ e :: weave es xss

/-! ## Lemmas -/

@[simp]
theorem weave_nil (es : List α) : weave es [] = es := by
  cases es <;> rfl

@[simp]
theorem nil_weave_cons (xs : List α) (xss : List (List α)) : weave [] (xs :: xss) = xs := rfl

@[simp]
theorem cons_weave_cons (e : α) (es xs : List α) (xss : List (List α)) :
    weave (e :: es) (xs :: xss) = xs ++ e :: weave es xss := rfl

/-- The first list can be read apart from the rest. -/
theorem weave_cons (es xs : List α) (xss : List (List α)) :
    weave es (xs :: xss) = xs ++ weave es ([] :: xss) := by
  cases es <;> simp

/-- A single empty list adds nothing. -/
@[simp]
theorem weave_singleton_nil (es : List α) : weave es [[]] = es := by
  cases es <;> simp

/-- Reading a node up to the gap `es.length` and then on. -/
theorem weave_append {es fs : List α} {xss yss : List (List α)} (h : es.length = xss.length) :
    weave (es ++ fs) (xss ++ yss) = weave es xss ++ weave fs yss := by
  induction es generalizing xss with
  | nil =>
    cases xss with
    | nil => simp
    | cons => simp at h
  | cons e es ih =>
    cases xss with
    | nil => simp at h
    | cons xs xss =>
      simp only [List.length_cons, Nat.add_right_cancel_iff] at h
      simp [ih h]

/-- A separator with a list of its own on its left cuts the reading in two. -/
theorem weave_append_cons {es fs : List α} {xss yss : List (List α)} (e : α)
    (h : xss.length = es.length + 1) :
    weave (es ++ e :: fs) (xss ++ yss) = weave es xss ++ e :: weave fs yss := by
  induction es generalizing xss with
  | nil =>
    match xss, h with
    | [xs], _ => rfl
  | cons f es ih =>
    cases xss with
    | nil => simp at h
    | cons xs xss =>
      simp only [List.length_cons, Nat.add_right_cancel_iff] at h
      simp [ih h]

/-- The separators are read in their order. -/
theorem sublist_weave (es : List α) (xss : List (List α)) : es.Sublist (weave es xss) := by
  induction es generalizing xss with
  | nil => exact List.nil_sublist _
  | cons e es ih =>
    cases xss with
    | nil => exact List.Sublist.refl _
    | cons xs xss => exact ((ih xss).cons_cons e).trans (List.sublist_append_right _ _)

/-- Every list up to the last gap is read. -/
theorem subset_weave {es xs : List α} {xss : List (List α)} (hlen : xss.length ≤ es.length + 1)
    (hxs : xs ∈ xss) : xs ⊆ weave es xss := by
  induction es generalizing xss with
  | nil =>
    match xss, hlen with
    | [ys], _ =>
      rw [List.mem_singleton.1 hxs]
      exact List.Subset.refl _
  | cons e es ih =>
    cases xss with
    | nil => cases hxs
    | cons ys xss =>
      rw [cons_weave_cons]
      rcases List.mem_cons.1 hxs with rfl | hxs
      · exact List.subset_append_left _ _
      · have hrest := ih (by simpa using hlen) hxs
        exact fun a ha => List.mem_append_right _ (List.mem_cons_of_mem _ (hrest ha))

/-- The list after the last separator stands at the end. -/
theorem weave_eq_take_append (es : List α) (xss : List (List α)) :
    weave es xss = weave es (xss.take es.length) ++ xss[es.length]?.getD [] := by
  induction es generalizing xss with
  | nil => cases xss <;> simp
  | cons e es ih =>
    cases xss with
    | nil => simp
    | cons xs xss => simp [← ih xss]

/-- The last separator of a stretch, with the list before it, stands at the end. -/
theorem weave_concat {es : List α} {xss : List (List α)} (e : α) (h : xss.length ≤ es.length + 1) :
    weave (es ++ [e]) xss =
      weave es (xss.take es.length) ++ xss[es.length]?.getD [] ++ [e] := by
  induction es generalizing xss with
  | nil =>
    match xss, h with
    | [], _ => rfl
    | [xs], _ => simp
  | cons f es ih =>
    cases xss with
    | nil => simp
    | cons xs xss =>
      simp only [List.length_cons] at h
      simp [@ih xss (by omega)]

end BTree
