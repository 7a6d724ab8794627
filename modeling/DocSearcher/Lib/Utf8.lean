/-
Codes that can be entered in the middle.

A text is written as a sequence of characters, each a leading unit with trailing
units after it.  If a trailing unit never leads and the leading unit tells how many
follow, then the units alone say where characters begin: a place is a boundary
exactly when the unit there does not trail.  So a text can be cut at a place, and
what is left is again a text, exactly when the place is a boundary.

UTF-8 is such a code.  The characters are those of `Char`, the Unicode scalar
values, and a byte trails when it is `0x80` to `0xBF`.
-/
import DocSearcher.Lib.Markup
import Mathlib.Data.List.Basic

namespace Lib

/-- A code in which each character has one leading unit, which tells the number of trailing ones. -/
structure SyncCode (χ α : Type) where
  encode : χ → List α
  Trails : α → Prop
  extra : α → Nat
  shape : ∀ x, ∃ lead tail, encode x = lead :: tail ∧ ¬ Trails lead ∧
    (∀ a ∈ tail, Trails a) ∧ tail.length = extra lead

namespace SyncCode

variable {χ α : Type} (C : SyncCode χ α)

/-- The units are those of a sequence of characters. -/
def Valid (s : List α) : Prop := ∃ xs : List χ, s = xs.flatMap C.encode

/-- No character of the text runs across the place before unit `i`. -/
def Boundary (s : List α) (i : Nat) : Prop := ∀ a, s[i]? = some a → ¬ C.Trails a

variable {C}

theorem valid_nil : C.Valid [] := ⟨[], rfl⟩

theorem Valid.append {s t : List α} (hs : C.Valid s) (ht : C.Valid t) : C.Valid (s ++ t) := by
  obtain ⟨xs, rfl⟩ := hs
  obtain ⟨ys, rfl⟩ := ht
  exact ⟨xs ++ ys, by rw [List.flatMap_append]⟩

theorem valid_encode (x : χ) : C.Valid (C.encode x) := ⟨[x], by simp⟩

/-- A text that is not empty begins with a character. -/
theorem Valid.cons_inv {lead : α} {s : List α} (h : C.Valid (lead :: s)) :
    ∃ tail rest, s = tail ++ rest ∧ ¬ C.Trails lead ∧ (∀ a ∈ tail, C.Trails a) ∧
      tail.length = C.extra lead ∧ C.Valid rest := by
  obtain ⟨xs, hxs⟩ := h
  cases xs with
  | nil => simp at hxs
  | cons x xs =>
      obtain ⟨lead', tail, hx, hlead, htail, hlen⟩ := C.shape x
      rw [List.flatMap_cons, hx, List.cons_append, List.cons.injEq] at hxs
      obtain ⟨rfl, hs⟩ := hxs
      exact ⟨tail, xs.flatMap C.encode, hs, hlead, htail, hlen, xs, rfl⟩

theorem Valid.boundary_zero {s : List α} (h : C.Valid s) : C.Boundary s 0 := by
  intro a ha
  cases s with
  | nil => simp at ha
  | cons lead s =>
      obtain ⟨-, -, -, hlead, -⟩ := h.cons_inv
      obtain rfl : lead = a := by simpa using ha
      exact hlead

theorem boundary_drop_iff {s : List α} {i j : Nat} :
    C.Boundary (s.drop i) j ↔ C.Boundary s (i + j) := by
  unfold Boundary
  rw [List.getElem?_drop]

/-- What follows a character is a text again. -/
theorem Valid.of_encode_append {x : χ} {s : List α} (h : C.Valid (C.encode x ++ s)) :
    C.Valid s := by
  obtain ⟨lead, tail, hx, -, -, hlen⟩ := C.shape x
  rw [hx, List.cons_append] at h
  obtain ⟨tail', rest, heq, -, -, hlen', hrest⟩ := h.cons_inv
  have hsame : s = rest := (List.append_inj heq (hlen.trans hlen'.symm)).2
  rw [hsame]
  exact hrest

/-! ### Cutting a text -/

/-- A boundary that lies in the first character is its beginning. -/
private theorem boundary_in_first {x : χ} {s : List α} {i : Nat}
    (h : C.Boundary (C.encode x ++ s) i) (hi : i < (C.encode x).length) : i = 0 := by
  obtain ⟨lead, tail, hx, -, htail, -⟩ := C.shape x
  rw [hx] at h hi
  cases i with
  | zero => rfl
  | succ i =>
      have hlt : i < tail.length := by simpa using hi
      exfalso
      refine h tail[i] ?_ (htail _ (List.getElem_mem hlt))
      rw [List.cons_append, List.getElem?_cons_succ, List.getElem?_append_left hlt,
        List.getElem?_eq_getElem hlt]

private theorem boundary_append_iff {s t : List α} {i : Nat} (hi : s.length ≤ i) :
    C.Boundary (s ++ t) i ↔ C.Boundary t (i - s.length) := by
  unfold Boundary
  rw [List.getElem?_append_right hi]

/-- A text cut at a boundary is two texts. -/
theorem Valid.split {s : List α} (h : C.Valid s) :
    ∀ {i : Nat}, C.Boundary s i → C.Valid (s.take i) ∧ C.Valid (s.drop i) := by
  obtain ⟨xs, rfl⟩ := h
  induction xs with
  | nil => intro i _; simp [valid_nil]
  | cons x xs ih =>
      intro i hi
      rw [List.flatMap_cons] at hi ⊢
      by_cases hlt : i < (C.encode x).length
      · rw [boundary_in_first hi hlt]
        exact ⟨valid_nil, (valid_encode x).append ⟨xs, rfl⟩⟩
      · have hle : (C.encode x).length ≤ i := Nat.not_lt.mp hlt
        obtain ⟨htake, hdrop⟩ := ih ((boundary_append_iff hle).mp hi)
        rw [List.take_append, List.take_of_length_le hle, List.drop_append,
          List.drop_of_length_le hle]
        exact ⟨(valid_encode x).append htake, hdrop⟩

/-- **The end of a text is a text exactly from a boundary on.** -/
theorem Valid.drop_iff {s : List α} (h : C.Valid s) (i : Nat) :
    C.Valid (s.drop i) ↔ C.Boundary s i := by
  refine ⟨fun hdrop => ?_, fun hi => (h.split hi).2⟩
  exact boundary_drop_iff.mp hdrop.boundary_zero

/-- A character cut in two is not completed by a text: it still claims its missing units. -/
private theorem not_valid_cut {x : χ} {t : List α} {i : Nat} (ht : C.Valid t) (hzero : i ≠ 0)
    (hlt : i < (C.encode x).length) : ¬ C.Valid ((C.encode x).take i ++ t) := by
  intro hcut
  obtain ⟨lead, tail, hx, -, -, hlen⟩ := C.shape x
  obtain ⟨k, rfl⟩ := Nat.exists_eq_succ_of_ne_zero hzero
  have hk : k < tail.length := by simpa [hx] using hlt
  rw [hx, List.take_succ_cons, List.cons_append] at hcut
  obtain ⟨tail', rest, heq, -, htail', hlen', -⟩ := hcut.cons_inv
  have hk' : k < tail'.length := by omega
  have htake : (tail.take k).length = k := List.length_take_of_le (Nat.le_of_lt hk)
  -- so the head of `t` would trail
  have hhead : t[0]? = some tail'[k] := by
    rw [← List.getElem?_eq_getElem hk', ← List.getElem?_append_left hk', ← heq,
      List.getElem?_append_right (by omega), htake, Nat.sub_self]
  exact ht.boundary_zero _ hhead (htail' _ (List.getElem_mem hk'))

/-- **The beginning of a text can be followed by another text exactly up to a boundary.** -/
theorem Valid.take_append_iff {s t : List α} (h : C.Valid s) (ht : C.Valid t) :
    ∀ {i : Nat}, i ≤ s.length → (C.Valid (s.take i ++ t) ↔ C.Boundary s i) := by
  obtain ⟨xs, rfl⟩ := h
  intro i hi
  refine ⟨fun hcut => ?_, fun hb => (Valid.split ⟨xs, rfl⟩ hb).1.append ht⟩
  induction xs generalizing i with
  | nil => intro a ha; simp at ha
  | cons x xs ih =>
      rw [List.flatMap_cons] at hi hcut ⊢
      by_cases hlt : i < (C.encode x).length
      · by_cases hzero : i = 0
        · rw [hzero]
          exact Valid.boundary_zero ((valid_encode x).append ⟨xs, rfl⟩)
        · rw [List.take_append_of_le_length (Nat.le_of_lt hlt)] at hcut
          exact absurd hcut (not_valid_cut ht hzero hlt)
      · have hle : (C.encode x).length ≤ i := Nat.not_lt.mp hlt
        rw [List.take_append, List.take_of_length_le hle, List.append_assoc] at hcut
        rw [List.length_append] at hi
        exact (boundary_append_iff hle).mpr (ih (by omega) hcut.of_encode_append)

/-! ### Characters of one unit

A delimiter that is a character by itself is never part of another, so splitting at
delimiters and putting pieces together again keeps to whole characters.
-/

theorem extra_eq_zero_of_single {a : α} (ha : C.Valid [a]) : C.extra a = 0 := by
  obtain ⟨tail, rest, heq, -, -, hlen, -⟩ := ha.cons_inv
  have htail : tail = [] := (List.append_eq_nil_iff.mp heq.symm).1
  rw [← hlen, htail]
  rfl

theorem not_trails_of_single {a : α} (ha : C.Valid [a]) : ¬ C.Trails a := by
  obtain ⟨-, -, -, hlead, -⟩ := ha.cons_inv
  exact hlead

/-- **A text can be cut at a delimiter.** -/
theorem valid_append_cons_iff {a : α} (ha : C.Valid [a]) {s t : List α} :
    C.Valid (s ++ a :: t) ↔ C.Valid s ∧ C.Valid t := by
  refine ⟨fun h => ?_, fun h => ?_⟩
  · have hboundary : C.Boundary (s ++ a :: t) s.length := by
      intro b hb
      rw [List.getElem?_append_right (Nat.le_refl _), Nat.sub_self, List.getElem?_cons_zero,
        Option.some.injEq] at hb
      rw [← hb]
      exact not_trails_of_single ha
    obtain ⟨hs, hrest⟩ := h.split hboundary
    rw [List.take_left] at hs
    rw [List.drop_left] at hrest
    obtain ⟨tail, rest, rfl, -, -, hlen, ht⟩ := hrest.cons_inv
    rw [extra_eq_zero_of_single ha] at hlen
    rw [List.length_eq_zero_iff.mp hlen, List.nil_append]
    exact ⟨hs, ht⟩
  · rw [← List.singleton_append]
    exact h.1.append (ha.append h.2)

theorem Valid.lines [DecidableEq α] {nl : α} (hnl : C.Valid [nl]) {s : List α} (h : C.Valid s) :
    ∀ line ∈ Lib.lines nl s, C.Valid line := by
  induction s using line_induction nl with
  | nil => simp
  | last line hline hne =>
      rw [lines_last hline hne]
      intro line' hline'
      rw [List.mem_singleton.mp hline']
      exact h
  | cons line rest hline ih =>
      obtain ⟨hfirst, hrest⟩ := (valid_append_cons_iff hnl).mp h
      rw [lines_cons rest hline]
      intro line' hline'
      rcases List.mem_cons.mp hline' with rfl | hmem
      · exact hfirst
      · exact ih hrest line' hmem

/-- What is outside the tags of a text is a text. -/
theorem Valid.outside {o c : α} (ho : C.Valid [o]) (hc : C.Valid [c]) (m : Markup o c)
    (h : C.Valid m.render) : C.Valid m.outside := by
  induction m with
  | text t ht => exact h
  | unclosed t g ht hg => exact ((valid_append_cons_iff ho).mp h).1
  | tag t g ht hg rest ih =>
      obtain ⟨htext, hafter⟩ := (valid_append_cons_iff ho).mp h
      exact htext.append (ih ((valid_append_cons_iff hc).mp hafter).2)

/-- **Replacing one-unit characters by one-unit characters keeps a text.** -/
theorem Valid.map {f : α → α} (hf : ∀ a, f a = a ∨ (C.Valid [a] ∧ C.Valid [f a])) {s : List α}
    (h : C.Valid s) : C.Valid (s.map f) := by
  obtain ⟨xs, rfl⟩ := h
  induction xs with
  | nil => exact valid_nil
  | cons x xs ih =>
      rw [List.flatMap_cons, List.map_append]
      refine Valid.append ?_ ih
      obtain ⟨lead, tail, hx, hlead, htail, hlen⟩ := C.shape x
      -- a trailing unit is no character, so `f` leaves it alone
      have hfixed : tail.map f = tail := by
        refine (List.map_congr_left fun a ha => ?_).trans (List.map_id tail)
        rcases hf a with heq | ⟨hsingle, -⟩
        · exact heq
        · exact absurd (htail a ha) (not_trails_of_single hsingle)
      rw [hx, List.map_cons, hfixed]
      rcases hf lead with heq | ⟨hsingle, hvalid⟩
      · rw [heq, ← hx]
        exact valid_encode x
      · rw [extra_eq_zero_of_single hsingle] at hlen
        rw [List.length_eq_zero_iff.mp hlen]
        exact hvalid

end SyncCode

/-! ### UTF-8 -/

/-- A byte that continues a character. -/
def Utf8Trails (b : UInt8) : Prop := 128 ≤ b ∧ b < 192

/-- The number of bytes a leading byte announces. -/
def utf8Extra (b : UInt8) : Nat :=
  if b < 128 then 0 else if b < 224 then 1 else if b < 240 then 2 else 3

private theorem trails_ofNat {n : Nat} (hlo : 128 ≤ n) (hhi : n < 192) :
    Utf8Trails (UInt8.ofNat n) := by
  unfold Utf8Trails
  rw [UInt8.le_iff_toNat_le, UInt8.lt_iff_toNat_lt, UInt8.toNat_ofNat']
  exact ⟨by simp; omega, by simp; omega⟩

private theorem not_trails_ofNat {n : Nat} (hn : n < 256) (h : n < 128 ∨ 192 ≤ n) :
    ¬ Utf8Trails (UInt8.ofNat n) := by
  unfold Utf8Trails
  rw [UInt8.le_iff_toNat_le, UInt8.lt_iff_toNat_lt, UInt8.toNat_ofNat']
  simp
  omega

private theorem extra_ofNat {n : Nat} (hn : n < 256) :
    utf8Extra (UInt8.ofNat n)
      = if n < 128 then 0 else if n < 224 then 1 else if n < 240 then 2 else 3 := by
  have hlt : ∀ m : UInt8, UInt8.ofNat n < m ↔ n < m.toNat := by
    intro m
    rw [UInt8.lt_iff_toNat_lt, UInt8.toNat_ofNat', Nat.mod_eq_of_lt hn]
  unfold utf8Extra
  simp only [hlt]
  rfl

private theorem utf8_shape (c : Char) : ∃ lead tail, String.utf8EncodeChar c = lead :: tail ∧
    ¬ Utf8Trails lead ∧ (∀ b ∈ tail, Utf8Trails b) ∧ tail.length = utf8Extra lead := by
  have htrail : ∀ n, Utf8Trails (UInt8.ofNat (n % 64 + 128)) := fun n =>
    trails_ofNat (by omega) (by omega)
  have htwo : ∀ m n, ∀ b ∈ [UInt8.ofNat (m % 64 + 128), UInt8.ofNat (n % 64 + 128)],
      Utf8Trails b := fun m n =>
    List.forall_mem_cons.mpr ⟨htrail m, List.forall_mem_singleton.mpr (htrail n)⟩
  unfold String.utf8EncodeChar
  by_cases h₁ : c.val.toNat ≤ 0x7f
  · refine ⟨_, _, if_pos h₁, not_trails_ofNat (by omega) (by omega), by simp, ?_⟩
    rw [extra_ofNat (by omega), if_pos (by omega)]
    rfl
  by_cases h₂ : c.val.toNat ≤ 0x7ff
  · refine ⟨_, _, (if_neg h₁).trans (if_pos h₂), not_trails_ofNat (by omega) (by omega),
      List.forall_mem_singleton.mpr (htrail _), ?_⟩
    rw [extra_ofNat (by omega), if_neg (by omega), if_pos (by omega)]
    rfl
  by_cases h₃ : c.val.toNat ≤ 0xffff
  · refine ⟨_, _, (if_neg h₁).trans ((if_neg h₂).trans (if_pos h₃)),
      not_trails_ofNat (by omega) (by omega), htwo _ _, ?_⟩
    rw [extra_ofNat (by omega), if_neg (by omega), if_neg (by omega), if_pos (by omega)]
    rfl
  · refine ⟨_, _, (if_neg h₁).trans ((if_neg h₂).trans (if_neg h₃)),
      not_trails_ofNat (by omega) (by omega),
      List.forall_mem_cons.mpr ⟨htrail _, htwo _ _⟩, ?_⟩
    rw [extra_ofNat (by omega), if_neg (by omega), if_neg (by omega), if_neg (by omega)]
    rfl

/-- UTF-8. -/
def utf8 : SyncCode Char UInt8 where
  encode := String.utf8EncodeChar
  Trails := Utf8Trails
  extra := utf8Extra
  shape := utf8_shape

/-- ASCII is UTF-8. -/
theorem utf8_valid_of_lt {s : List UInt8} (h : ∀ b ∈ s, b < 128) : utf8.Valid s := by
  induction s with
  | nil => exact SyncCode.valid_nil
  | cons b s ih =>
      have hb : b.toNat < 128 := UInt8.lt_iff_toNat_lt.mp (h b (by simp))
      have hchar : utf8.encode (Char.ofUInt8 b) = [b] := by
        have hval : (Char.ofUInt8 b).val.toNat = b.toNat := UInt8.toNat_toUInt32 b
        have hle : (Char.ofUInt8 b).val.toNat ≤ 0x7f := by omega
        calc String.utf8EncodeChar (Char.ofUInt8 b)
            = [UInt8.ofNat (Char.ofUInt8 b).val.toNat] := if_pos hle
          _ = [b] := by rw [hval, UInt8.ofNat_toNat]
      have hrest : utf8.Valid s := ih fun b' hb' => h b' (by simp [hb'])
      have hcons := (SyncCode.valid_encode (C := utf8) (Char.ofUInt8 b)).append hrest
      rw [hchar] at hcons
      exact hcons

end Lib
