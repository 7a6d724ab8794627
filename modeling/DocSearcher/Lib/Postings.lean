/-
Posting lists.

An inverted index keeps, under each key, what the documents contribute there, in
document order.  With `entry i d` the contribution of document `d` at position `i`,
or nothing, that list is `postings`.  An index is grown one document at a time by
appending under the keys the document has, which is `extend`; the lemmas here say
that growing step by step and listing all at once come to the same thing, and what
can be read off such a list: each document contributes at most once, at its own
position, independently of every other document.
-/
import Mathlib.Data.List.Basic
import Mathlib.Data.List.Pairwise
import Mathlib.Order.Monotone.Basic

namespace Lib

variable {δ ρ : Type}

/-- The contributions of `docs`, the first of which has number `base`. -/
def postings (entry : Nat → δ → Option ρ) (base : Nat) (docs : List δ) : List ρ :=
  (docs.zipIdx base).filterMap fun x => entry x.2 x.1

/-- The list under a key after `new` is appended to it; nothing new leaves no list behind. -/
def extend (old : Option (List ρ)) (new : List ρ) : Option (List ρ) :=
  if new = [] then old else some (old.getD [] ++ new)

/-! ### Growing a list -/

@[simp] theorem extend_nil (old : Option (List ρ)) : extend old [] = old := if_pos rfl

theorem extend_of_ne_nil (old : Option (List ρ)) {new : List ρ} (h : new ≠ []) :
    extend old new = some (old.getD [] ++ new) := if_neg h

theorem extend_extend (old : Option (List ρ)) (new more : List ρ) :
    extend (extend old new) more = extend old (new ++ more) := by
  by_cases hnew : new = []
  · rw [hnew, extend_nil, List.nil_append]
  · by_cases hmore : more = []
    · rw [hmore, extend_nil, List.append_nil]
    · rw [extend_of_ne_nil old hnew, extend_of_ne_nil _ hmore,
        extend_of_ne_nil old (by simp [hnew]), Option.getD_some, List.append_assoc]

@[simp] theorem getD_extend (old : Option (List ρ)) (new : List ρ) :
    (extend old new).getD [] = old.getD [] ++ new := by
  by_cases hnew : new = []
  · rw [hnew, extend_nil, List.append_nil]
  · rw [extend_of_ne_nil old hnew, Option.getD_some]

theorem extend_none_eq_some_iff {new list : List ρ} :
    extend none new = some list ↔ list = new ∧ new ≠ [] := by
  by_cases hnew : new = []
  · rw [hnew, extend_nil]
    simp
  · rw [extend_of_ne_nil none hnew]
    simp [hnew, eq_comm]

/-! ### Documents contribute one by one -/

variable (entry : Nat → δ → Option ρ)

@[simp] theorem postings_nil (base : Nat) : postings entry base [] = [] := rfl

theorem postings_cons (base : Nat) (d : δ) (docs : List δ) :
    postings entry base (d :: docs)
      = (entry base d).toList ++ postings entry (base + 1) docs := by
  unfold postings
  rw [List.zipIdx_cons, List.filterMap_cons]
  cases entry base d with
  | none => rfl
  | some r => rfl

theorem postings_append (base : Nat) (docs more : List δ) :
    postings entry base (docs ++ more)
      = postings entry base docs ++ postings entry (base + docs.length) more := by
  unfold postings
  rw [List.zipIdx_append, List.filterMap_append]

theorem mem_postings {base : Nat} {docs : List δ} {r : ρ} :
    r ∈ postings entry base docs ↔
      ∃ i d, docs[i]? = some d ∧ entry (base + i) d = some r := by
  unfold postings
  rw [List.mem_filterMap]
  refine ⟨fun h => ?_, fun h => ?_⟩
  · obtain ⟨⟨d, j⟩, hmem, hentry⟩ := h
    obtain ⟨hle, hget⟩ := List.mem_zipIdx_iff_le_and_getElem?_sub.mp hmem
    refine ⟨j - base, d, hget, ?_⟩
    rw [show base + (j - base) = j from Nat.add_sub_cancel' hle]
    exact hentry
  · obtain ⟨i, d, hget, hentry⟩ := h
    refine ⟨(d, base + i), ?_, hentry⟩
    refine List.mem_zipIdx_iff_le_and_getElem?_sub.mpr ⟨Nat.le_add_right _ _, ?_⟩
    rw [Nat.add_sub_cancel_left]
    exact hget

/-- Documents that contribute alike may stand for one another. -/
theorem postings_map {f : δ → δ} (h : ∀ i d, entry i (f d) = entry i d) (base : Nat)
    (docs : List δ) : postings entry base (docs.map f) = postings entry base docs := by
  unfold postings
  rw [List.zipIdx_map, List.filterMap_map]
  exact List.filterMap_congr fun x _ => h x.2 x.1

/-- A view of the contributions that the documents alone decide. -/
theorem map_postings {τ : Type} (view : ρ → τ) (own : δ → Option τ) {docs : List δ} :
    ∀ {base : Nat}, (∀ i d, docs[i]? = some d → (entry (base + i) d).map view = own d) →
      (postings entry base docs).map view = docs.filterMap own := by
  induction docs with
  | nil => intro base _; rfl
  | cons d rest ih =>
      intro base h
      have hrest : ∀ i d', rest[i]? = some d' →
          (entry (base + 1 + i) d').map view = own d' := by
        intro i d' hd'
        rw [show base + 1 + i = base + (i + 1) by omega]
        exact h (i + 1) d' (by simpa using hd')
      have hhead : (entry base d).map view = own d := h 0 d (by simp)
      rw [postings_cons, List.map_append, ih hrest, List.filterMap_cons, ← hhead]
      cases entry base d with
      | none => rfl
      | some r => rfl

/-! ### At most one contribution, at its own position -/

variable {entry} {ι : Type} [Preorder ι] {num : ρ → ι} {number : Nat → ι}

/-- Contributions come in strictly increasing document order. -/
theorem pairwise_postings (hmono : StrictMono number)
    (hnum : ∀ i d r, entry i d = some r → num r = number i) (docs : List δ) :
    ∀ base, (postings entry base docs).Pairwise fun r r' => num r < num r' := by
  induction docs with
  | nil => intro base; exact List.Pairwise.nil
  | cons d rest ih =>
      intro base
      rw [postings_cons]
      cases hd : entry base d with
      | none => exact ih (base + 1)
      | some r =>
          refine List.Pairwise.cons ?_ (ih (base + 1))
          intro r' hr'
          obtain ⟨i, d', -, hentry⟩ := (mem_postings entry).mp hr'
          rw [hnum base d r hd, hnum _ d' r' hentry]
          exact hmono (by omega)

/-- The contributions at one position are those of the document there. -/
theorem filter_postings [DecidableEq ι] (hmono : StrictMono number)
    (hnum : ∀ i d r, entry i d = some r → num r = number i) {d : δ} :
    ∀ {docs : List δ} {base i : Nat}, docs[i]? = some d →
      ((postings entry base docs).filter fun r => num r = number (base + i))
        = (entry (base + i) d).toList := by
  intro docs
  induction docs with
  | nil => intro base i h; simp at h
  | cons d' rest ih =>
      intro base i h
      rw [postings_cons, List.filter_append]
      cases i with
      | zero =>
          have hd : d' = d := by simpa using h
          -- everything further down has a larger number
          have hrest : ((postings entry (base + 1) rest).filter fun r => num r = number base)
              = [] := by
            rw [List.filter_eq_nil_iff]
            intro r hr hc
            obtain ⟨j, d'', -, hentry⟩ := (mem_postings entry).mp hr
            have heq : number (base + 1 + j) = number base := by
              rw [← hnum _ d'' r hentry]
              exact of_decide_eq_true hc
            have hlt : number base < number (base + 1 + j) := hmono (by omega)
            rw [heq] at hlt
            exact lt_irrefl _ hlt
          rw [Nat.add_zero, hrest, List.append_nil, hd]
          cases hentry : entry base d with
          | none => rfl
          | some r => simp [hnum base d r hentry]
      | succ i =>
          have hhead : ((entry base d').toList.filter fun r => num r = number (base + (i + 1)))
              = [] := by
            rw [List.filter_eq_nil_iff]
            intro r hr hc
            have hentry : entry base d' = some r := by simpa using hr
            have heq : number base = number (base + (i + 1)) := by
              rw [← hnum _ d' r hentry]
              exact of_decide_eq_true hc
            have hlt : number base < number (base + (i + 1)) := hmono (by omega)
            rw [← heq] at hlt
            exact lt_irrefl _ hlt
          have hget : rest[i]? = some d := by simpa using h
          have := @ih (base + 1) i hget
          rw [show base + 1 + i = base + (i + 1) by omega] at this
          rw [hhead, List.nil_append, this]

end Lib
