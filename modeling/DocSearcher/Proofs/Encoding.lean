/-
Whether a snippet is still UTF-8.

The window of `GenerateDesc` is measured in bytes: it starts 60 bytes before the
word and, when the content goes on, its text stops after 157 bytes.  A character of
several bytes may lie across either place, and then part of it is sent.  The server
announces its answers as `charset=utf-8`, and the dots put after the cut are ASCII,
so a snippet is well formed exactly when both cuts fall between characters.
-/
import DocSearcher.Lib.Utf8
import DocSearcher.Proofs.Desc

namespace DocSearcher.Searcher

/-- The bytes are well-formed UTF-8. -/
def WellFormed (s : Str) : Prop := Lib.utf8.Valid s

/--
The places where `GenerateDesc` cuts the content are not inside a character.  A place
is inside one when the byte there continues a character, `0x80` to `0xBF`.
-/
def CutsBetween (content word : Str) : Prop :=
  (¬ word <:+: content → 160 ≤ content.length → Lib.utf8.Boundary content 157) ∧
  ∀ p, Lib.OccursAt word content p → (∀ j, Lib.OccursAt word content j → p ≤ j) →
    Lib.utf8.Boundary content (p - 60) ∧
    (p - 60 + 160 < content.length → Lib.utf8.Boundary content (p - 60 + 157))

/-- A run of one ASCII byte. -/
theorem wellFormed_replicate {b : UInt8} (hb : b < 128) (n : Nat) :
    WellFormed (List.replicate n b) := by
  apply Lib.utf8_valid_of_lt
  intro x hx
  rw [List.eq_of_mem_replicate hx]
  exact hb

theorem wellFormed_dots : WellFormed [dot, dot, dot] :=
  wellFormed_replicate (by decide) 3

/-! ### The two cuts -/

/-- A snippet is well formed when the window starts, and the text in it stops, between characters. -/
theorem snippet_wellFormed_iff {content : Str} (h : WellFormed content) (word : Str) :
    WellFormed (snippet content word) ↔
      Lib.utf8.Boundary content (windowStart content word) ∧
        (marked content word = true →
          Lib.utf8.Boundary content (windowStart content word + 157)) := by
  cases hm : marked content word with
  | false =>
      rw [snippet_of_not_marked hm]
      refine (h.drop_iff _).trans ⟨fun hb => ⟨hb, fun hc => by simp at hc⟩, fun hb => hb.1⟩
  | true =>
      have hlen := windowStart_add_le hm
      have hfits : 157 ≤ (content.drop (windowStart content word)).length := by
        rw [List.length_drop]
        omega
      rw [snippet_of_marked hm, dotted]
      -- the first byte of the snippet is the content's, so the window starts at a boundary
      have hstart : WellFormed ((content.drop (windowStart content word)).take 157
          ++ [dot, dot, dot]) → Lib.utf8.Boundary content (windowStart content word) := by
        intro hv
        have hzero := hv.boundary_zero
        unfold Lib.SyncCode.Boundary at hzero ⊢
        rw [List.getElem?_append_left (by rw [List.length_take]; omega),
          List.getElem?_take_of_lt (by omega), List.getElem?_drop] at hzero
        exact hzero
      have hstop : Lib.utf8.Boundary content (windowStart content word) →
          (WellFormed ((content.drop (windowStart content word)).take 157 ++ [dot, dot, dot]) ↔
            Lib.utf8.Boundary content (windowStart content word + 157)) := by
        intro hb
        have hdrop : WellFormed (content.drop (windowStart content word)) :=
          (h.drop_iff _).mpr hb
        exact (hdrop.take_append_iff wellFormed_dots hfits).trans Lib.SyncCode.boundary_drop_iff
      refine ⟨fun hv => ⟨hstart hv, fun _ => (hstop (hstart hv)).mp hv⟩, fun hb => ?_⟩
      exact (hstop hb.1).mpr (hb.2 rfl)

theorem cutsBetween_iff {content : Str} (h : WellFormed content) (word : Str) :
    CutsBetween content word ↔
      Lib.utf8.Boundary content (windowStart content word) ∧
        (marked content word = true →
          Lib.utf8.Boundary content (windowStart content word + 157)) := by
  unfold CutsBetween
  cases hfind : Lib.find content word 0 with
  | none =>
      have hno := Lib.find_zero_eq_none_iff.mp hfind
      rw [windowStart_of_absent hno, marked_of_absent hno, decide_eq_true_iff]
      refine ⟨fun hc => ⟨h.boundary_zero, hc.1 hno⟩, fun hc => ⟨fun _ => hc.2, ?_⟩⟩
      intro p hocc
      exact absurd (Lib.infix_iff_occursAt.mpr ⟨p, hocc⟩) hno
  | some p =>
      obtain ⟨-, hocc, hfirst⟩ := Lib.find_eq_some_iff.mp hfind
      rw [windowStart_of_find hfind, marked_of_find hfind, decide_eq_true_iff]
      refine ⟨fun hc => hc.2 p hocc fun j => hfirst j (Nat.zero_le j), fun hc => ⟨?_, ?_⟩⟩
      · intro hno
        exact absurd (Lib.infix_iff_occursAt.mpr ⟨p, hocc⟩) hno
      · intro p' hocc' hfirst'
        have hsame := first_find hocc' hfirst'
        rw [hfind, Option.some.injEq] at hsame
        rw [← hsame]
        exact hc

/--
**A snippet of UTF-8 is UTF-8 exactly when neither cut is inside a character**: not the
one 60 bytes before the first occurrence of the word, and, if the text goes on, not
the one 157 bytes after that, where the dots begin.
-/
theorem generateDesc_wellFormed_iff (content word : Str) (hcontent : WellFormed content) :
    (∃ r, generateDesc content word = .ok r ∧ WellFormed r) ↔ CutsBetween content word := by
  rw [cutsBetween_iff hcontent, ← snippet_wellFormed_iff hcontent]
  exact exists_generateDesc_iff

/-! ### A character cut in two -/

/-- 156 bytes `a`, a character of three bytes, and two more `a`. -/
def straddling : Str := List.replicate 156 97 ++ ([0xE4, 0xB8, 0xAD] ++ List.replicate 2 97)

private theorem straddling_wellFormed : WellFormed straddling := by
  have hascii : ∀ n, WellFormed (List.replicate n 97) := wellFormed_replicate (by decide)
  have hchar : WellFormed [0xE4, 0xB8, 0xAD] := Lib.SyncCode.valid_encode (C := Lib.utf8) '中'
  exact (hascii 156).append (hchar.append (hascii 2))

/-- The condition applies to that content. -/
theorem generateDesc_wellFormed_straddling :
    WellFormed straddling ∧
      ((∃ r, generateDesc straddling [98] = .ok r ∧ WellFormed r) ↔ CutsBetween straddling [98]) :=
  ⟨straddling_wellFormed, generateDesc_wellFormed_iff straddling [98] straddling_wellFormed⟩

private theorem straddling_absent : ¬ [98] <:+: straddling := by
  intro hin
  have hb : (98 : UInt8) ∈ straddling := hin.subset (List.mem_singleton.mpr rfl)
  rcases List.mem_append.mp hb with hb | hb
  · exact absurd (List.eq_of_mem_replicate hb) (by decide)
  · exact absurd hb (by decide)

private theorem straddling_marked : marked straddling [98] = true := by
  rw [marked_of_absent straddling_absent, straddling, List.length_append, List.length_replicate]
  rfl

/-- The snippet ends in the first byte of the character and three dots, and is not UTF-8. -/
theorem generateDesc_splits_character :
    WellFormed straddling ∧ WellFormed [98] ∧
    generateDesc straddling [98] = .ok (List.replicate 156 97 ++ [0xE4, dot, dot, dot]) ∧
    ¬ WellFormed (List.replicate 156 97 ++ [0xE4, dot, dot, dot]) := by
  have hsnippet : snippet straddling [98] = List.replicate 156 97 ++ [0xE4, dot, dot, dot] := by
    rw [snippet_of_marked straddling_marked, windowStart_of_absent straddling_absent,
      List.drop_zero, dotted, straddling, List.take_append, List.length_replicate,
      List.take_of_length_le (by rw [List.length_replicate]; omega), List.append_assoc]
    rfl
  refine ⟨straddling_wellFormed, wellFormed_replicate (by decide) 1, ?_, ?_⟩
  · rw [generateDesc_eq, hsnippet]
  · rw [← hsnippet, snippet_wellFormed_iff straddling_wellFormed]
    intro hcuts
    -- the byte after the cut is the second one of the character
    have hbyte : straddling[157]? = some 0xB8 := by
      rw [straddling, List.getElem?_append_right (by rw [List.length_replicate]; omega),
        List.length_replicate]
      rfl
    have hstop := hcuts.2 straddling_marked
    rw [windowStart_of_absent straddling_absent, Nat.zero_add] at hstop
    exact hstop _ hbyte ⟨by decide, by decide⟩

end DocSearcher.Searcher
