import LiveSheet.Placeholder
import LiveSheet.Proofs.Reference.Sequenced

/-! The names that the placeholders of a text ask for. A reader of what stands in the braces comes past them. -/

namespace LiveSheet

namespace Placeholder

def asksFrom (lookup : String → Option Value) (mode : Mode) (quoting : Text.Quoting) (cs : List Char) : List String :=
  match cs with
  | [] => []
  | c :: cs =>
    if c = '\x7b' ∧ quoting = .code then
      match _h : Text.splitBrace 1 cs with
      | some (inner, rest) =>
        asksFrom lookup mode .code inner ++
          (((expandFrom lookup mode .code inner).toOption.bind reference?).map Reference.name).toList ++
          asksFrom lookup mode (mode.afterAll (inner ++ ['\x7d']) quoting) rest
      | none => asksFrom lookup mode quoting cs
    else asksFrom lookup mode (mode.after c quoting) cs
termination_by cs.length
decreasing_by
  all_goals simp_wf
  · grind [Text.eq_of_splitBrace _h]
  · grind [Text.eq_of_splitBrace _h]

def asks (lookup : String → Option Value) (mode : Mode) (text : String) : List String :=
  asksFrom lookup mode .code text.toList

variable {lookup lookup' : String → Option Value} {mode : Mode} {quoting : Text.Quoting} {cs inner rest : List Char} {c : Char}

theorem expandFrom_brace (h : Text.splitBrace 1 cs = some (inner, rest)) :
    expandFrom lookup mode .code ('\x7b' :: cs) = (do
      let inner' ← expandFrom lookup mode .code inner
      let shown ← replacement lookup mode inner'
      let rest' ← expandFrom lookup mode (mode.afterAll (inner ++ ['\x7d']) .code) rest
      return shown ++ rest') := by
  rw [expandFrom, if_pos ⟨rfl, rfl⟩]
  split
  · next heq =>
    rw [h] at heq
    cases heq
    rfl
  · next heq =>
    rw [h] at heq
    cases heq

theorem expandFrom_open (h : Text.splitBrace 1 cs = none) :
    expandFrom lookup mode .code ('\x7b' :: cs) = (expandFrom lookup mode .code cs).map ('\x7b' :: ·) := by
  rw [expandFrom, if_pos ⟨rfl, rfl⟩]
  split
  · next heq =>
    rw [h] at heq
    cases heq
  · rfl

theorem expandFrom_plain (h : ¬(c = '\x7b' ∧ quoting = .code)) :
    expandFrom lookup mode quoting (c :: cs) = (expandFrom lookup mode (mode.after c quoting) cs).map (c :: ·) := by
  rw [expandFrom, if_neg h]

theorem asksFrom_brace (h : Text.splitBrace 1 cs = some (inner, rest)) :
    asksFrom lookup mode .code ('\x7b' :: cs) = asksFrom lookup mode .code inner ++
      (((expandFrom lookup mode .code inner).toOption.bind reference?).map Reference.name).toList ++
      asksFrom lookup mode (mode.afterAll (inner ++ ['\x7d']) .code) rest := by
  rw [asksFrom, if_pos ⟨rfl, rfl⟩]
  split
  · next heq =>
    rw [h] at heq
    cases heq
    rfl
  · next heq =>
    rw [h] at heq
    cases heq

theorem asksFrom_open (h : Text.splitBrace 1 cs = none) :
    asksFrom lookup mode .code ('\x7b' :: cs) = asksFrom lookup mode .code cs := by
  rw [asksFrom, if_pos ⟨rfl, rfl⟩]
  split
  · next heq =>
    rw [h] at heq
    cases heq
  · rfl

theorem asksFrom_plain (h : ¬(c = '\x7b' ∧ quoting = .code)) :
    asksFrom lookup mode quoting (c :: cs) = asksFrom lookup mode (mode.after c quoting) cs := by
  rw [asksFrom, if_neg h]

theorem eq_of_after? {word : List Char} (h : after? word cs = some rest) : cs = word ++ rest := by
  unfold after? at h
  split at h
  · next hprefix =>
    cases h
    exact (List.prefix_iff_eq_append.1 (List.isPrefixOf_iff_prefix.1 hprefix)).symm
  · cases h

theorem expandFrom_congr (h : ∀ n ∈ asksFrom lookup mode quoting cs, lookup n = lookup' n) :
    expandFrom lookup mode quoting cs = expandFrom lookup' mode quoting cs := by
  induction hlength : cs.length using Nat.strongRecOn generalizing cs quoting with
  | _ n ih =>
    subst hlength
    cases cs with
    | nil => simp [expandFrom]
    | cons c cs =>
      by_cases hbrace : c = '\x7b' ∧ quoting = .code
      · obtain ⟨rfl, rfl⟩ := hbrace
        cases hsplit : Text.splitBrace 1 cs with
        | none =>
          rw [asksFrom_open hsplit] at h
          rw [expandFrom_open hsplit, expandFrom_open hsplit, ih cs.length (by simp) h rfl]
        | some split =>
          obtain ⟨inner, rest⟩ := split
          have heq := Text.eq_of_splitBrace hsplit
          rw [asksFrom_brace hsplit] at h
          have hinner := ih inner.length (by grind) (fun n hn => h n (List.mem_append_left _ (List.mem_append_left _ hn))) rfl
          have hrest := ih rest.length (by grind) (fun n hn => h n (List.mem_append_right _ hn)) rfl
          rw [expandFrom_brace hsplit, expandFrom_brace hsplit, ← hinner, ← hrest]
          cases hshown : expandFrom lookup mode .code inner with
          | error e => rfl
          | ok inner' =>
            have hreplacement : replacement lookup mode inner' = replacement lookup' mode inner' := by
              unfold replacement
              cases href : reference? inner' with
              | none => rfl
              | some r =>
                have hname := h r.name (List.mem_append_left _ (List.mem_append_right _ (by simp [hshown, Except.toOption, href])))
                simp only [value, hname]
            change replacement lookup mode inner' >>= _ = replacement lookup' mode inner' >>= _
            rw [hreplacement]
      · rw [asksFrom_plain hbrace] at h
        rw [expandFrom_plain hbrace, expandFrom_plain hbrace, ih cs.length (by simp) h rfl]

end Placeholder

namespace References

open Placeholder

theorem after_gap {s : Sight} {gap : List Char} (hgap : Await.Blank gap) (hs : s.settled = s) (hslash : s ≠ .slash) :
    s.after gap = s := by
  induction gap with
  | nil => rfl
  | cons c gap ih =>
    obtain ⟨hc, hgap⟩ := List.forall_mem_cons.1 hgap
    rw [Sight.after_cons, Sight.next_blank s hc, hs, if_neg hslash]
    exact ih hgap

theorem blank_takeWhile (cs : List Char) : Await.Blank (cs.takeWhile Text.isBlank) :=
  List.all_eq_true.1 List.all_takeWhile

theorem eq_gap_append (cs : List Char) : cs = cs.takeWhile Text.isBlank ++ Text.trimStart cs := List.takeWhile_append_dropWhile.symm

theorem skipThis_read (cs : List Char) : ∃ front, cs = front ++ skipThis cs ∧ (∀ c ∈ front, c ∉ limits) ∧
    (Sight.other.after front = .other ∨ Sight.other.after front = .selfDot) := by
  have hnone : skipThis cs = cs → ∃ front, cs = front ++ skipThis cs ∧ (∀ c ∈ front, c ∉ limits) ∧
      (Sight.other.after front = .other ∨ Sight.other.after front = .selfDot) := fun h =>
    ⟨[], h.symm, List.forall_mem_nil _, .inl rfl⟩
  cases hthis : after? "this".toList cs with
  | none => exact hnone (by simp only [skipThis, hthis])
  | some rest =>
    by_cases hdot : ∃ tail, Text.trimStart rest = '.' :: tail
    · obtain ⟨tail, htail⟩ := hdot
      have hskip : skipThis cs = Text.trimStart tail := by simp only [skipThis, hthis, htail]
      have hword : ∀ c ∈ "this".toList, Text.isWord c = true := by decide
      have hgap := blank_takeWhile rest
      have hgap' := blank_takeWhile tail
      have hself : (Sight.other.after "this".toList).settled = .self := by
        rw [Sight.after_whole hword (by decide) (by simp)]
        rfl
      have hdot : ((Sight.other.after "this".toList).after (rest.takeWhile Text.isBlank)).next '.' = .selfDot := by
        rw [Sight.next_mark _ (by decide) (by decide) (by decide), settled_after_gap hgap (by rw [hself]; simp), hself]
        rfl
      refine ⟨"this".toList ++ (rest.takeWhile Text.isBlank ++ '.' :: tail.takeWhile Text.isBlank), ?_, ?_, .inr ?_⟩
      · calc cs = "this".toList ++ rest := eq_of_after? hthis
          _ = "this".toList ++ (rest.takeWhile Text.isBlank ++ '.' :: tail) := by rw [← htail, ← eq_gap_append]
          _ = "this".toList ++ (rest.takeWhile Text.isBlank ++ '.' :: (tail.takeWhile Text.isBlank ++ skipThis cs)) := by
            rw [hskip, ← eq_gap_append]
          _ = _ := by simp
      · intro c hc
        rcases List.mem_append.1 hc with hc | hc
        · exact not_mem_limits_of_isNamePart ((by decide : ∀ c ∈ "this".toList, Text.isNamePart c = true) c hc)
        · rcases List.mem_append.1 hc with hc | hc
          · exact not_mem_limits_of_isBlank (hgap c hc)
          · rcases List.mem_cons.1 hc with rfl | hc
            · decide
            · exact not_mem_limits_of_isBlank (hgap' c hc)
      · rw [Sight.after_append, Sight.after_append, Sight.after_cons, hdot]
        exact after_gap hgap' rfl (by simp)
    · refine hnone ?_
      simp only [skipThis, hthis]
      split
      · next tail htail => exact absurd ⟨tail, htail⟩ hdot
      · rfl

theorem index?_head {cs : List Char} {index : Option (List Char)} (h : index? cs = some index) :
    ∃ c rest, cs ++ ['\x7d'] = c :: rest ∧ Text.isWord c = false := by
  cases cs with
  | nil => exact ⟨'\x7d', [], rfl, by decide⟩
  | cons c cs =>
    refine ⟨c, cs ++ ['\x7d'], rfl, ?_⟩
    by_cases hc : Text.isBlank c = true
    · exact Text.not_isWord_of_isBlank hc
    · have htrim : Text.trimStart (c :: cs) = c :: cs := by simp [Text.trimStart, hc]
      simp only [index?, htrim] at h
      split at h
      · next heq => cases heq
      · next heq =>
        cases heq
        decide
      · cases h

theorem reference?_read {inner : List Char} {ref : Placeholder.Reference} (h : reference? inner = some ref) (braces : List Nat) :
    .name ref.name.toList ∈ (⟨.code, braces, .other⟩ : Reader).findings (inner ++ ['\x7d']) := by
  unfold reference? at h
  simp only at h
  split at h
  · next hname =>
    obtain ⟨index, hindex, rfl⟩ := Option.map_eq_some_iff.1 h
    obtain ⟨c, rest, hrest, hc⟩ := index?_head hindex
    obtain ⟨front, hfront, hlimits, hsight⟩ := skipThis_read (Text.trimStart inner)
    have hgap := blank_takeWhile inner
    generalize skipThis (Text.trimStart inner) = cs at *
    have hword : ∀ d ∈ cs.takeWhile Text.isVariablePart, Text.isWord d = true := fun d hd =>
      Text.isWord_of_isVariablePart (List.all_eq_true.1 List.all_takeWhile d hd)
    have hne : cs.takeWhile Text.isVariablePart ≠ [] := by
      intro hnil
      rw [hnil] at hname
      cases hname
    have hchars : inner ++ ['\x7d'] = inner.takeWhile Text.isBlank ++ front ++ cs.takeWhile Text.isVariablePart ++ c :: rest := by
      calc inner ++ ['\x7d'] = inner.takeWhile Text.isBlank ++ (front ++ cs) ++ ['\x7d'] := by rw [← hfront, ← eq_gap_append]
        _ = inner.takeWhile Text.isBlank ++ (front ++ (cs.takeWhile Text.isVariablePart ++ cs.dropWhile Text.isVariablePart)) ++
            ['\x7d'] := by rw [List.takeWhile_append_dropWhile]
        _ = _ := by simp only [List.append_assoc, hrest]
    have hsight : Sight.other.after (inner.takeWhile Text.isBlank ++ front ++ cs.takeWhile Text.isVariablePart) =
        .word (cs.takeWhile Text.isVariablePart) true true := by
      rw [Sight.after_append, Sight.after_append, after_gap hgap rfl (by simp)]
      rcases hsight with heq | heq <;> rw [heq] <;> exact Sight.after_whole hword hne (by simp)
    have hcode : ∀ d ∈ inner.takeWhile Text.isBlank ++ front ++ cs.takeWhile Text.isVariablePart, d ∉ limits := by
      intro d hd
      rcases List.mem_append.1 hd with hd | hd
      · rcases List.mem_append.1 hd with hd | hd
        · exact not_mem_limits_of_isBlank (hgap d hd)
        · exact hlimits d hd
      · exact not_mem_limits_of_isNamePart (Text.isNamePart_of_isVariablePart (List.all_eq_true.1 List.all_takeWhile d hd))
    rw [hchars, Reader.findings_append, Reader.after_code braces _ hcode, hsight, Reader.findings_cons, String.toList_ofList]
    refine List.mem_append_right _ (List.mem_append_left _ ?_)
    simp [Reader.finds, Sight.ended?, hc, hname]
  · cases h

end References

end LiveSheet
