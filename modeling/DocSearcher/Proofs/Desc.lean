/-
The window `GenerateDesc` cuts out of a document.

Every path of `GenerateDesc` returns the content from some offset on, either to its
end or for 160 bytes with the last three turned into dots.  `snippet` says so
without the checks, and `generateDesc_eq` that no check ever fails.  What remains
is where the window starts and when it is marked as cut; there the two branches of
the source disagree by one, and a document of exactly 160 bytes is marked although
nothing was cut off.
-/
import DocSearcher.Searcher

namespace DocSearcher.Searcher

/-! ### The snippet, without the checks -/

/-- Where the window starts: at most 60 bytes before the first occurrence. -/
def windowStart (content word : Str) : Nat :=
  match Lib.find content word 0 with
  | none => 0
  | some firstPos => firstPos - 60

/-- Whether the window is 160 bytes ending in dots. -/
def marked (content word : Str) : Bool :=
  match Lib.find content word 0 with
  | none => 160 ≤ content.length
  | some firstPos => firstPos - 60 + 160 < content.length

/-- The first 157 bytes and three dots. -/
def dotted (s : Str) : Str := s.take 157 ++ [dot, dot, dot]

/-- What `GenerateDesc` returns. -/
def snippet (content word : Str) : Str :=
  if marked content word then dotted (content.drop (windowStart content word))
  else content.drop (windowStart content word)

private theorem set_last_three (s : Str) {n : Nat} (h : s.length = n + 3) (c : UInt8) :
    ((s.set (n + 2) c).set (n + 1) c).set n c = s.take n ++ [c, c, c] := by
  have hsplit : s = s.take n ++ s.drop n := (List.take_append_drop n s).symm
  have htake : (s.take n).length = n := List.length_take_of_le (by omega)
  obtain ⟨x, y, z, hdrop⟩ := List.length_eq_three.mp (show (s.drop n).length = 3 by
    rw [List.length_drop]
    omega)
  rw [hdrop] at hsplit
  generalize s.take n = front at hsplit htake ⊢
  subst hsplit
  rw [List.set_append_right _ _ (by omega), List.set_append_right _ _ (by omega),
    List.set_append_right _ _ (by omega), htake, Nat.add_sub_cancel_left, Nat.add_sub_cancel_left,
    Nat.sub_self]
  rfl

private theorem ellipsis_eq {content : Str} {descBeg : Nat} (h : descBeg + 160 ≤ content.length) :
    ellipsis content descBeg = .ok (dotted (content.drop descBeg)) := by
  have hlen : ((content.drop descBeg).take 160).length = 160 := by
    rw [List.length_take, List.length_drop]
    omega
  have hset := set_last_three _ hlen dot
  rw [List.take_take, Nat.min_eq_left (by omega)] at hset
  unfold ellipsis substr setAt sizeSub
  rw [if_pos (by omega)]
  simp only [bind, Except.bind, hlen, List.length_set, Nat.reduceLeDiff, Nat.reduceSub,
    Nat.reduceLT, if_true]
  exact congrArg Except.ok hset

/-- **No path of `GenerateDesc` goes out of range or wraps.** -/
theorem generateDesc_eq (content word : Str) :
    generateDesc content word = .ok (snippet content word) := by
  unfold generateDesc snippet marked windowStart
  cases hfind : Lib.find content word 0 with
  | none =>
      by_cases hlen : content.length < 160
      · simp [hlen, Nat.not_le.mpr hlen]
      · have hle : 160 ≤ content.length := Nat.not_lt.mp hlen
        simp only [hlen, hle, if_false, decide_true, if_true]
        exact ellipsis_eq (by omega)
  | some p =>
      have hbeg : (if p < 60 then (Except.ok 0 : Except Fault Nat) else sizeSub p 60)
          = .ok (p - 60) := by
        by_cases hp : p < 60
        · rw [if_pos hp, Nat.sub_eq_zero_of_le (by omega)]
        · rw [if_neg hp, sizeSub, if_pos (by omega)]
      obtain ⟨-, hocc, -⟩ := Lib.find_eq_some_iff.mp hfind
      have hple := hocc.add_length_le
      simp only [hbeg, bind, Except.bind]
      by_cases hlen : p - 60 + 160 ≥ content.length
      · rw [if_pos hlen, substrFrom, if_pos (by omega)]
        simp [Nat.not_lt.mpr hlen]
      · rw [if_neg hlen, ellipsis_eq (by omega)]
        simp [Nat.lt_of_not_le hlen]

theorem exists_generateDesc_iff {content word : Str} {P : Str → Prop} :
    (∃ r, generateDesc content word = .ok r ∧ P r) ↔ P (snippet content word) := by
  rw [generateDesc_eq]
  refine ⟨fun h => ?_, fun h => ⟨_, rfl, h⟩⟩
  obtain ⟨r, hr, h⟩ := h
  rw [Except.ok.inj hr]
  exact h

/-! ### The shape of the window -/

theorem windowStart_of_absent {content word : Str} (h : ¬ word <:+: content) :
    windowStart content word = 0 := by
  unfold windowStart
  rw [Lib.find_zero_eq_none_iff.mpr h]

theorem marked_of_absent {content word : Str} (h : ¬ word <:+: content) :
    marked content word = decide (160 ≤ content.length) := by
  unfold marked
  rw [Lib.find_zero_eq_none_iff.mpr h]

theorem windowStart_of_find {content word : Str} {p : Nat} (h : Lib.find content word 0 = some p) :
    windowStart content word = p - 60 := by
  unfold windowStart
  rw [h]

theorem marked_of_find {content word : Str} {p : Nat} (h : Lib.find content word 0 = some p) :
    marked content word = decide (p - 60 + 160 < content.length) := by
  unfold marked
  rw [h]

/-- A marked window has its 160 bytes. -/
theorem windowStart_add_le {content word : Str} (h : marked content word = true) :
    windowStart content word + 160 ≤ content.length := by
  cases hfind : Lib.find content word 0 with
  | none =>
      have hno := Lib.find_zero_eq_none_iff.mp hfind
      rw [marked_of_absent hno] at h
      rw [windowStart_of_absent hno]
      have := of_decide_eq_true h
      omega
  | some p =>
      rw [marked_of_find hfind] at h
      rw [windowStart_of_find hfind]
      have := of_decide_eq_true h
      omega

/-- An unmarked window reaches the end of the content within 160 bytes. -/
theorem le_windowStart_add {content word : Str} (h : marked content word = false) :
    windowStart content word ≤ content.length ∧
      content.length ≤ windowStart content word + 160 := by
  cases hfind : Lib.find content word 0 with
  | none =>
      have hno := Lib.find_zero_eq_none_iff.mp hfind
      rw [marked_of_absent hno] at h
      rw [windowStart_of_absent hno]
      have := of_decide_eq_false h
      omega
  | some p =>
      obtain ⟨-, hocc, -⟩ := Lib.find_eq_some_iff.mp hfind
      have hple := hocc.add_length_le
      rw [marked_of_find hfind] at h
      rw [windowStart_of_find hfind]
      have := of_decide_eq_false h
      omega

theorem snippet_of_marked {content word : Str} (h : marked content word = true) :
    snippet content word = dotted (content.drop (windowStart content word)) := by
  unfold snippet
  rw [if_pos h]

theorem snippet_of_not_marked {content word : Str} (h : marked content word = false) :
    snippet content word = content.drop (windowStart content word) := by
  unfold snippet
  rw [if_neg (by simp [h])]

theorem length_dotted {s : Str} (h : 160 ≤ s.length) : (dotted s).length = 160 := by
  unfold dotted
  rw [List.length_append, List.length_take_of_le (by omega)]
  rfl

theorem length_snippet_of_marked {content word : Str} (h : marked content word = true) :
    (snippet content word).length = 160 := by
  have hle := windowStart_add_le h
  rw [snippet_of_marked h]
  exact length_dotted (by rw [List.length_drop]; omega)

theorem length_snippet_of_not_marked {content word : Str} (h : marked content word = false) :
    windowStart content word + (snippet content word).length = content.length := by
  have hle := le_windowStart_add h
  rw [snippet_of_not_marked h, List.length_drop]
  omega

/-- The first `n ≤ 157` bytes of the window are the content's. -/
theorem take_snippet (content word : Str) {n : Nat} (hn : n ≤ 157) :
    (snippet content word).take n = (content.drop (windowStart content word)).take n := by
  cases h : marked content word with
  | true =>
      have hle := windowStart_add_le h
      have hlen : n ≤ ((content.drop (windowStart content word)).take 157).length := by
        rw [List.length_take, List.length_drop]
        omega
      rw [snippet_of_marked h, dotted, List.take_append_of_le_length hlen, List.take_take,
        Nat.min_eq_left hn]
  | false => rw [snippet_of_not_marked h]

/-- An occurrence of the word with at most 97 bytes is shown whole, at most 60 bytes in. -/
theorem occursAt_snippet {content word : Str} {p : Nat} (hfind : Lib.find content word 0 = some p)
    (hword : word.length ≤ 97) :
    windowStart content word + min p 60 = p ∧
      Lib.OccursAt word (snippet content word) (min p 60) := by
  obtain ⟨-, hocc, -⟩ := Lib.find_eq_some_iff.mp hfind
  have hple := hocc.add_length_le
  have hstart : windowStart content word + min p 60 = p := by
    rw [windowStart_of_find hfind]
    omega
  refine ⟨hstart, ?_⟩
  -- the occurrence ends within the first 157 bytes of the window, which are never altered
  have hwindow : Lib.OccursAt word (content.drop (windowStart content word)) (min p 60) :=
    Lib.occursAt_drop (by rw [hstart]; exact hocc)
  have hend : min p 60 + word.length ≤ 157 := by omega
  exact hwindow.of_take_eq (take_snippet content word hend).symm (Nat.le_refl _)

/-- The window is the content's bytes, the last three of 160 perhaps turned into dots. -/
theorem snippet_bytes (content word : Str) :
    windowStart content word + (snippet content word).length ≤ content.length ∧
      (snippet content word).length ≤ 160 ∧
      (snippet content word
          = (content.drop (windowStart content word)).take (snippet content word).length ∨
        (snippet content word).length = 160 ∧
          snippet content word
            = (content.drop (windowStart content word)).take 157 ++ [dot, dot, dot]) := by
  cases h : marked content word with
  | true =>
      have hle := windowStart_add_le h
      have hlen := length_snippet_of_marked h
      exact ⟨by omega, by omega, Or.inr ⟨hlen, snippet_of_marked h⟩⟩
  | false =>
      have hle := le_windowStart_add h
      have hlen := length_snippet_of_not_marked h
      refine ⟨by omega, by omega, Or.inl ?_⟩
      rw [List.take_of_length_le (by rw [List.length_drop]; omega)]
      exact snippet_of_not_marked h

theorem first_find {content word : Str} {p : Nat} (hocc : Lib.OccursAt word content p)
    (hfirst : ∀ j, Lib.OccursAt word content j → p ≤ j) : Lib.find content word 0 = some p :=
  Lib.find_eq_some_iff.mpr ⟨Nat.zero_le p, hocc, fun j _ hj => hfirst j hj⟩

/-! ### A word of 98 bytes can lose its last byte -/

/-- 98 times the byte `b`. -/
private def longWord : Str := List.replicate 98 98

/-- The long word between 60 bytes before it and 3 after. -/
private def longContent : Str := List.replicate 60 97 ++ longWord ++ List.replicate 3 97

private theorem find_longWord : Lib.find longContent longWord 0 = some 60 := by
  refine first_find ⟨List.replicate 60 97, List.replicate 3 97, rfl, List.length_replicate⟩ ?_
  intro j hj
  by_contra hlt
  -- the word starts with `b`, and the first 60 bytes are all `a`
  have hb : longContent[j]? = some 98 := hj.getElem? (k := 0) (by decide)
  have ha : longContent[j]? = some 97 := by
    unfold longContent
    rw [List.append_assoc, List.getElem?_append_left (by rw [List.length_replicate]; omega),
      List.getElem?_replicate, if_pos (by omega)]
  rw [ha] at hb
  exact absurd hb (by decide)

private theorem snippet_longWord : (snippet longContent longWord)[157]? = some dot := by
  have hlen : longContent.length = 161 := by
    unfold longContent longWord
    simp only [List.length_append, List.length_replicate]
  have hmarked : marked longContent longWord = true := by
    rw [marked_of_find find_longWord, hlen]
    rfl
  rw [snippet_of_marked hmarked, windowStart_of_find find_longWord, dotted,
    List.getElem?_append_right (by rw [List.length_take, List.length_drop]; omega),
    List.length_take, List.length_drop, hlen]
  rfl

/--
**`GenerateDesc`'s window.**  Nothing goes out of range or wraps; the result is at
most 160 consecutive bytes of the content, of which at most the last three of 160
are replaced, by dots; and the first occurrence of a word of at most 97 bytes is
shown whole, at most 60 bytes in.  For 98 bytes this fails.
-/
theorem generateDesc_window (content word : Str) :
    (∃ r b, generateDesc content word = .ok r ∧ r.length ≤ 160 ∧
      b + r.length ≤ content.length ∧
      (r = (content.drop b).take r.length ∨
        r.length = 160 ∧ r = (content.drop b).take 157 ++ [dot, dot, dot]) ∧
      ∀ p, Lib.OccursAt word content p → (∀ j, Lib.OccursAt word content j → p ≤ j) →
        word.length ≤ 97 → b + min p 60 = p ∧ Lib.OccursAt word r (min p 60)) ∧
    ∃ (content' word' r' : Str) (p : Nat), word'.length = 98 ∧
      Lib.OccursAt word' content' p ∧ (∀ j, Lib.OccursAt word' content' j → p ≤ j) ∧
      generateDesc content' word' = .ok r' ∧ ¬ Lib.OccursAt word' r' (min p 60) := by
  refine ⟨⟨snippet content word, windowStart content word, generateDesc_eq content word, ?_⟩, ?_⟩
  · obtain ⟨hle, hlen, hbytes⟩ := snippet_bytes content word
    refine ⟨hlen, hle, hbytes, ?_⟩
    intro p hocc hfirst hword
    exact occursAt_snippet (first_find hocc hfirst) hword
  · obtain ⟨-, hocc, hfirst⟩ := Lib.find_eq_some_iff.mp find_longWord
    refine ⟨longContent, longWord, snippet longContent longWord, 60, List.length_replicate, hocc,
      fun j hj => hfirst j (Nat.zero_le j) hj, generateDesc_eq _ _, ?_⟩
    intro hc
    have hb : (snippet longContent longWord)[60 + 97]? = some 98 :=
      (hc.getElem? (k := 97) (by decide)).trans (by decide)
    rw [snippet_longWord] at hb
    exact absurd hb (by decide)

/-! ### When the dots mean that something was cut off

The two branches test the length differently: with the word found, a window that
reaches the end is returned as it is; with the word missing, `content.size() < 160`
sends a document of exactly 160 bytes to the branch that overwrites its end.
-/

/-- The dots stand exactly where the window stops short of the end of the content. -/
def EllipsisMarksTruncation (content word : Str) : Prop :=
  ∃ r, generateDesc content word = .ok r ∧
    (windowStart content word + r.length = content.length →
      r = content.drop (windowStart content word)) ∧
    (windowStart content word + r.length ≠ content.length → [dot, dot, dot] <:+ r)

/-- The window is marked although it reaches the end. -/
private theorem marked_at_end_iff {content word : Str} (h : marked content word = true) :
    windowStart content word + 160 = content.length ↔
      ¬ word <:+: content ∧ content.length = 160 := by
  by_cases hin : word <:+: content
  · cases hfind : Lib.find content word 0 with
    | none => exact absurd hin (Lib.find_zero_eq_none_iff.mp hfind)
    | some p =>
        rw [marked_of_find hfind] at h
        have hlt := of_decide_eq_true h
        rw [windowStart_of_find hfind]
        exact ⟨fun heq => by omega, fun hc => absurd hin hc.1⟩
  · rw [windowStart_of_absent hin]
    exact ⟨fun heq => ⟨hin, by omega⟩, fun hc => by omega⟩

/--
**The ellipsis marks truncation except on a document of exactly 160 bytes without
the word**, whose last three bytes are overwritten unless they are dots already.
-/
theorem ellipsisMarksTruncation_iff (content word : Str) :
    EllipsisMarksTruncation content word ↔
      ¬ (¬ word <:+: content ∧ content.length = 160 ∧ content.drop 157 ≠ [dot, dot, dot]) := by
  have hok : EllipsisMarksTruncation content word ↔
      (windowStart content word + (snippet content word).length = content.length →
        snippet content word = content.drop (windowStart content word)) ∧
      (windowStart content word + (snippet content word).length ≠ content.length →
        [dot, dot, dot] <:+ snippet content word) := exists_generateDesc_iff
  rw [hok]
  cases h : marked content word with
  | false =>
      -- an unmarked window is the rest of the content, and is right in every case
      have hlen := length_snippet_of_not_marked h
      have hle := le_windowStart_add h
      refine ⟨fun _ hc => ?_, fun _ => ⟨fun _ => snippet_of_not_marked h,
        fun hne => absurd hlen hne⟩⟩
      rw [marked_of_absent hc.1] at h
      have := of_decide_eq_false h
      omega
  | true =>
      rw [length_snippet_of_marked h]
      by_cases hend : windowStart content word + 160 = content.length
      · obtain ⟨hin, h160⟩ := (marked_at_end_iff h).mp hend
        have hstart : windowStart content word = 0 := windowStart_of_absent hin
        have hsnip : snippet content word = content.take 157 ++ [dot, dot, dot] := by
          rw [snippet_of_marked h, hstart, List.drop_zero, dotted]
        rw [hstart, List.drop_zero, hsnip]
        have hsame : content.take 157 ++ [dot, dot, dot] = content ↔
            content.drop 157 = [dot, dot, dot] := by
          refine ⟨fun heq => ?_, fun heq => ?_⟩
          · have happ := heq.trans (List.take_append_drop 157 content).symm
            exact (List.append_cancel_left happ).symm
          · rw [← heq, List.take_append_drop]
        rw [hsame]
        refine ⟨fun hp hc => hc.2.2 (hp.1 (by omega)), fun hp => ⟨fun _ => ?_, fun hne => ?_⟩⟩
        · by_contra hne
          exact hp ⟨hin, h160, hne⟩
        · exact absurd (by omega) hne
      · refine ⟨fun _ hc => hend ((marked_at_end_iff h).mpr ⟨hc.1, hc.2.1⟩), fun _ =>
          ⟨fun heq => absurd heq hend, fun _ => ?_⟩⟩
        rw [snippet_of_marked h]
        exact List.suffix_append _ _

/-- 160 bytes `a`, searched for `b`: nothing is cut off, yet the end is overwritten. -/
theorem ellipsis_overwrites_exact_fit :
    ¬ EllipsisMarksTruncation (List.replicate 160 97) [98] := by
  intro h
  obtain ⟨r, hr, hsame, -⟩ := h
  rw [generateDesc_eq, Except.ok.injEq] at hr
  have hin : ¬ ([98] : Str) <:+: List.replicate 160 97 := by
    intro hc
    have := List.eq_of_mem_replicate (hc.subset (List.mem_singleton.mpr rfl))
    exact absurd this (by decide)
  have hmarked : marked (List.replicate 160 97) [98] = true := by
    rw [marked_of_absent hin, List.length_replicate]
    rfl
  have hend : windowStart (List.replicate 160 97) [98] + r.length
      = (List.replicate 160 (97 : UInt8)).length := by
    rw [← hr, length_snippet_of_marked hmarked, windowStart_of_absent hin,
      List.length_replicate]
  have hdot : dot ∈ List.replicate 160 (97 : UInt8) := by
    have heq := hsame hend
    rw [windowStart_of_absent hin, List.drop_zero] at heq
    rw [← heq, ← hr, snippet_of_marked hmarked, dotted]
    simp
  exact absurd (List.eq_of_mem_replicate hdot) (by decide)

end DocSearcher.Searcher
