/-
Hash maps written through `m[key]`, and iterating over one.

A hash map is a `Finmap`: two maps are equal when they hold the same value under
every key, whatever order their buckets happen to store the entries in.  Writing
through `m[key]` creates the entry with a default value first, which is `update`;
a loop of such writes is a left fold, and `lookup_foldl_update` says what it
leaves under one key: the writes to that key, in order, and nothing else.

The order a loop over the entries sees is not part of a `Finmap`, so it is a
parameter.  An `Enumeration` is any way of listing the entries, each once.
-/
import Mathlib.Data.Finmap
import Mathlib.Data.Finset.Sort

namespace Lib

variable {κ ν β : Type} [DecidableEq κ]

/-- Apply `f` to `m[k]`, which reads as the default value when `k` is absent. -/
def update [Inhabited ν] (m : Finmap fun _ : κ => ν) (k : κ) (f : ν → ν) :
    Finmap fun _ : κ => ν :=
  m.insert k (f ((m.lookup k).getD default))

theorem lookup_update_self [Inhabited ν] (m : Finmap fun _ : κ => ν) (k : κ) (f : ν → ν) :
    (update m k f).lookup k = some (f ((m.lookup k).getD default)) :=
  Finmap.lookup_insert m

theorem lookup_update_of_ne [Inhabited ν] (m : Finmap fun _ : κ => ν) {k k' : κ} (f : ν → ν)
    (h : k' ≠ k) : (update m k f).lookup k' = m.lookup k' :=
  Finmap.lookup_insert_of_ne m h

/-- **A loop of writes leaves under `k` the writes to `k`, in order.** -/
theorem lookup_foldl_update [Inhabited ν] (key : β → κ) (act : β → ν → ν) (k : κ) (xs : List β) :
    ∀ m : Finmap fun _ : κ => ν,
      (xs.foldl (fun m x => update m (key x) (act x)) m).lookup k =
        if k ∈ xs.map key then
          some ((xs.filter fun x => key x = k).foldl (fun v x => act x v)
            ((m.lookup k).getD default))
        else m.lookup k := by
  induction xs with
  | nil => intro m; simp
  | cons x rest ih =>
      intro m
      rw [List.foldl_cons, ih]
      by_cases hx : key x = k
      · subst hx
        rw [lookup_update_self, List.filter_cons_of_pos (by simp), List.foldl_cons,
          Option.getD_some]
        by_cases hrest : key x ∈ rest.map key
        · rw [if_pos hrest, if_pos (by simp)]
        · have hnone : (rest.filter fun y => key y = key x) = [] := by
            rw [List.filter_eq_nil_iff]
            intro y hy hc
            exact hrest (by rw [← of_decide_eq_true hc]; exact List.mem_map_of_mem hy)
          rw [if_neg hrest, if_pos (by simp), hnone, List.foldl_nil]
      · rw [lookup_update_of_ne m (act x) (Ne.symm hx), List.filter_cons_of_neg (by simpa using hx),
          List.map_cons]
        simp only [List.mem_cons, Ne.symm hx, false_or]

/-! ### Listing the entries -/

omit [DecidableEq κ] in
/-- A way of listing a map's entries, each exactly once. -/
structure Enumeration (κ ν : Type) where
  toList : (Finmap fun _ : κ => ν) → List (Σ _ : κ, ν)
  coe_toList : ∀ m, (toList m : Multiset (Σ _ : κ, ν)) = m.entries

namespace Enumeration

variable (e : Enumeration κ ν) (m : Finmap fun _ : κ => ν)

theorem mem_toList {k : κ} {v : ν} : ⟨k, v⟩ ∈ e.toList m ↔ m.lookup k = some v := by
  rw [← Multiset.mem_coe, e.coe_toList, ← Finmap.lookup_eq_some_iff]

omit [DecidableEq κ] in
theorem nodup_keys : ((e.toList m).map Sigma.fst).Nodup := by
  have h : (e.toList m : Multiset (Σ _ : κ, ν)).NodupKeys := by
    rw [e.coe_toList]
    exact m.nodupKeys
  exact h

theorem mem_keys {k : κ} : k ∈ (e.toList m).map Sigma.fst ↔ (m.lookup k).isSome := by
  rw [List.mem_map, Option.isSome_iff_exists]
  refine ⟨fun h => ?_, fun h => ?_⟩
  · obtain ⟨⟨k, v⟩, hmem, rfl⟩ := h
    exact ⟨v, (mem_toList e m).mp hmem⟩
  · obtain ⟨v, hv⟩ := h
    exact ⟨⟨k, v⟩, (mem_toList e m).mpr hv, rfl⟩

/-- Whatever the order, a key that is present is visited exactly once. -/
theorem filter_key {k : κ} {v : ν} (h : m.lookup k = some v) :
    ((e.toList m).filter fun x => x.1 = k) = [⟨k, v⟩] := by
  have hmem : (⟨k, v⟩ : Σ _ : κ, ν) ∈ (e.toList m).filter fun x => x.1 = k :=
    List.mem_filter.mpr ⟨(mem_toList e m).mpr h, by simp⟩
  have hall : ∀ x ∈ (e.toList m).filter fun x => x.1 = k, x = ⟨k, v⟩ := by
    intro x hx
    obtain ⟨k', v'⟩ := x
    obtain ⟨hmem', hk⟩ := List.mem_filter.mp hx
    have hk' : k' = k := of_decide_eq_true hk
    have hlook := (mem_toList e m).mp hmem'
    rw [hk', h, Option.some.injEq] at hlook
    rw [hk', hlook]
  have hnd : ((e.toList m).filter fun x => x.1 = k).Nodup :=
    (List.Nodup.of_map _ (nodup_keys e m)).filter _
  -- a duplicate-free list all of whose elements are equal has at most one
  generalize (e.toList m).filter (fun x => x.1 = k) = l at hmem hall hnd
  match l, hmem, hall, hnd with
  | [x], _, hall, _ => rw [hall x (by simp)]
  | x :: y :: rest, _, hall, hnd =>
      exact absurd ((hall x (by simp)).trans (hall y (by simp)).symm)
        (by simp at hnd; exact fun h => hnd.1.1 h)

end Enumeration

/-- The entries by increasing rank of their keys. -/
def Enumeration.byRank {ι : Type} [LinearOrder ι] (rank : κ → ι) (h : Function.Injective rank) :
    Enumeration κ ν :=
  let le : κ → κ → Prop := fun a b => rank a ≤ rank b
  have : DecidableRel le := fun a b => inferInstanceAs (Decidable (rank a ≤ rank b))
  have : IsTrans κ le := ⟨fun _ _ _ hab hbc => le_trans hab hbc⟩
  have : Std.Antisymm le := ⟨fun _ _ hab hba => h (le_antisymm hab hba)⟩
  have : Std.Total le := ⟨fun a b => le_total (rank a) (rank b)⟩
  { toList := fun m => (m.keys.sort le).filterMap fun k => (m.lookup k).map fun v => ⟨k, v⟩
    coe_toList := by
      intro m
      have hnd : ((m.keys.sort le).filterMap fun k =>
          (m.lookup k).map fun v => (⟨k, v⟩ : Σ _ : κ, ν)).Nodup := by
        refine (Finset.sort_nodup m.keys le).filterMap ?_
        intro a a' x hx hx'
        obtain ⟨v, -, rfl⟩ := Option.map_eq_some_iff.mp hx
        obtain ⟨v', -, hv'⟩ := Option.map_eq_some_iff.mp hx'
        exact (congrArg Sigma.fst hv').symm
      refine (Multiset.Nodup.ext (Multiset.coe_nodup.mpr hnd) m.nodup_entries).mpr ?_
      intro x
      obtain ⟨k, v⟩ := x
      rw [Multiset.mem_coe, ← Finmap.lookup_eq_some_iff, List.mem_filterMap]
      refine ⟨fun hx => ?_, fun hv => ?_⟩
      · obtain ⟨a, -, ha⟩ := hx
        obtain ⟨w, hw, hkw⟩ := Option.map_eq_some_iff.mp ha
        obtain ⟨rfl, rfl⟩ := Sigma.mk.inj hkw
        exact hw
      · refine ⟨k, ?_, by rw [hv]; rfl⟩
        rw [Finset.mem_sort, Finmap.mem_keys]
        exact Finmap.mem_of_lookup_eq_some hv }

end Lib
