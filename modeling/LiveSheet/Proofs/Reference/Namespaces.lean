import LiveSheet.Await.Registry
import LiveSheet.Proofs.Reference.Scanned

/-! What a script invokes and what an expression refers to is the same. The names of integrations are looked for in two
ways: as patterns with a dot at their end, and among the words of a text. -/

namespace LiveSheet.References

open Await (Blank firstMatch foundFrom ownerPattern)

variable {names : List String} {spans : List Text.Span} {i : Nat} {before word after cs gap : List Char} {c : Char}

section

variable (hwords : ∀ c ∈ word, Text.isWord c = true) (hafter : after.head?.any Text.isWord = false)

include hwords hafter

theorem of_matchStart {name : String} (hname : Text.isVariableName name.toList = true) {m : Await.Match}
    (h : (ownerPattern name).matchStart (word ++ after) = some m) : name = String.ofList word ∧ m.name = name ∧
      ∃ gap, Blank gap ∧ m.text = word ++ (gap ++ ['.']) ∧ after = gap ++ '.' :: m.rest := by
  obtain ⟨⟨text, rest⟩, hmatch, rfl⟩ := Option.map_eq_some_iff.1 h
  rw [ownerPattern, List.append_assoc] at hmatch
  obtain ⟨cs, m, hsplit, rfl, hend⟩ := Await.matchElements_chars.1 hmatch
  obtain ⟨gap, hgap, rfl, rfl⟩ := Await.matchElements_end hend
  have hstop : (gap ++ '.' :: rest).head?.any Text.isWord = false := by
    cases gap with
    | nil => rfl
    | cons d gap => exact Text.not_isWord_of_isBlank (hgap d List.mem_cons_self)
  have hletters : ∀ c ∈ name.toList, Text.isWord c = true := fun c hc =>
    Text.isWord_of_isVariablePart (Text.isVariablePart_of_isVariableName hname c hc)
  obtain ⟨htake, hdrop⟩ := Await.takeWhile_append_of_stop hwords hafter
  obtain ⟨htake', hdrop'⟩ := Await.takeWhile_append_of_stop hletters hstop
  rw [hsplit] at htake hdrop
  obtain rfl := htake'.symm.trans htake
  exact ⟨String.ofList_toList.symm, rfl, gap, hgap, rfl, hdrop.symm.trans hdrop'⟩

theorem of_firstMatch (hnames : ∀ name ∈ names, Text.isVariableName name.toList = true) {m : Await.Match}
    (h : firstMatch (names.map ownerPattern) before (word ++ after) = some m) : m.name = String.ofList word ∧ m.name ∈ names ∧
      ∃ gap, Blank gap ∧ m.text = word ++ (gap ++ ['.']) ∧ after = gap ++ '.' :: m.rest := by
  unfold firstMatch at h
  split at h
  · obtain ⟨p, hp, hstart⟩ := List.exists_of_findSome?_eq_some h
    obtain ⟨name, hmem, rfl⟩ := List.mem_map.1 hp
    obtain ⟨hname, hmname, hgap⟩ := of_matchStart hwords hafter (hnames name hmem) hstart
    exact ⟨hmname.trans hname, hmname ▸ hmem, hgap⟩
  · cases h

end

theorem isSome_firstMatch (hbefore : before.head?.any Text.isWord = false) (hword : word.head?.any Text.isWord = true)
    (hmem : String.ofList word ∈ names) (hgap : Blank gap) (rest : List Char) :
    (firstMatch (names.map ownerPattern) before (word ++ (gap ++ '.' :: rest))).isSome := by
  have hboundary : Await.atBoundary before (word ++ (gap ++ '.' :: rest)) = true := by
    obtain ⟨c, word, rfl⟩ : ∃ c xs, word = c :: xs := List.exists_cons_of_ne_nil fun hnil => by simp [hnil] at hword
    have hc : Text.isWord c = true := hword
    simp [Await.atBoundary, hbefore, hc]
  rw [firstMatch, if_pos hboundary, List.findSome?_isSome_iff]
  refine ⟨_, List.mem_map_of_mem hmem, ?_⟩
  rw [Await.Pattern.matchStart, Option.isSome_map, ownerPattern, List.append_assoc, String.toList_ofList]
  exact Await.isSome_matchElements_chars word (Await.isSome_matchElements_end '.' hgap rest)

theorem firstMatch_eq_none (hnames : ∀ name ∈ names, Text.isVariableName name.toList = true) (hc : Text.isWord c = false) :
    firstMatch (names.map ownerPattern) before (c :: cs) = none := by
  refine Option.eq_none_iff_forall_not_mem.2 fun m hm => ?_
  unfold firstMatch at hm
  split at hm
  · obtain ⟨p, hp, hstart⟩ := List.exists_of_findSome?_eq_some hm
    obtain ⟨name, hmem, rfl⟩ := List.mem_map.1 hp
    obtain ⟨⟨text, rest⟩, hmatch, rfl⟩ := Option.map_eq_some_iff.1 hstart
    rw [ownerPattern, List.append_assoc] at hmatch
    obtain ⟨cs', m, hsplit, -, -⟩ := Await.matchElements_chars.1 hmatch
    have hname := hnames name hmem
    cases hlist : name.toList with
    | nil =>
      rw [hlist] at hname
      cases hname
    | cons d ds =>
      have hd := Text.isVariablePart_of_isVariableName hname d (hlist ▸ List.mem_cons_self)
      rw [hlist] at hsplit
      obtain ⟨rfl, _⟩ := List.cons.inj hsplit
      rw [Text.isWord_of_isVariablePart hd] at hc
      cases hc
  · cases hm

theorem foundFrom_inside (hbefore : before.head?.any Text.isWord = true) (hwords : ∀ c ∈ word, Text.isWord c = true) :
    foundFrom (names.map ownerPattern) spans i before (word ++ after) =
      foundFrom (names.map ownerPattern) spans (i + word.length) (word.reverse ++ before) after := by
  induction word generalizing i before with
  | nil => rfl
  | cons c word ih =>
    obtain ⟨hc, hwords⟩ := List.forall_mem_cons.1 hwords
    have hnone : firstMatch (names.map ownerPattern) before (c :: (word ++ after)) = none := by
      rw [firstMatch, if_neg (by simp [Await.atBoundary, hbefore, hc])]
    rw [List.cons_append, Await.foundFrom_none hnone, ih (by simpa using hc) hwords]
    simp [Nat.add_assoc, Nat.add_comm 1]

theorem foundFrom_marks (hnames : ∀ name ∈ names, Text.isVariableName name.toList = true)
    (hcs : ∀ c ∈ cs, Text.isWord c = false) : foundFrom (names.map ownerPattern) spans i before (cs ++ after) =
      foundFrom (names.map ownerPattern) spans (i + cs.length) (cs.reverse ++ before) after := by
  induction cs generalizing i before with
  | nil => rfl
  | cons c cs ih =>
    obtain ⟨hc, hcs⟩ := List.forall_mem_cons.1 hcs
    rw [List.cons_append, Await.foundFrom_none (firstMatch_eq_none hnames hc), ih hcs]
    simp [Nat.add_assoc, Nat.add_comm 1]

theorem exists_gap (h : (Text.trimStart cs).head? = some '.') : ∃ gap rest, Blank gap ∧ cs = gap ++ '.' :: rest := by
  obtain ⟨gap, rest, rfl, hgap, hstop⟩ := exists_run Text.isBlank cs
  rw [Text.trimStart, dropWhile_blank hgap hstop] at h
  obtain ⟨rest, rfl⟩ := List.head?_eq_some_iff.1 h
  exact ⟨gap, rest, hgap, rfl⟩

theorem foundFrom_word (hnames : ∀ name ∈ names, Text.isVariableName name.toList = true)
    (hbefore : before.head?.any Text.isWord = false) (hwords : ∀ c ∈ word, Text.isWord c = true) (hne : word ≠ [])
    (hafter : after.head?.any Text.isWord = false) : foundFrom (names.map ownerPattern) spans i before (word ++ after) =
      (if Text.inSpans spans i = false ∧ Text.followsDot before = false ∧ String.ofList word ∈ names ∧
        (Text.trimStart after).head? = some '.' then [String.ofList word] else []) ++
      foundFrom (names.map ownerPattern) spans (i + word.length) (word.reverse ++ before) after := by
  cases hm : firstMatch (names.map ownerPattern) before (word ++ after) with
  | none =>
    obtain ⟨c, word, rfl⟩ := List.exists_cons_of_ne_nil hne
    obtain ⟨hc, hword⟩ := List.forall_mem_cons.1 hwords
    rw [if_neg, List.nil_append]
    · rw [List.cons_append] at hm ⊢
      rw [Await.foundFrom_none hm, foundFrom_inside (by simpa using hc) hword]
      simp [Nat.add_assoc, Nat.add_comm 1]
    · rintro ⟨_, _, hmem, hdot⟩
      obtain ⟨gap, rest, hgap, rfl⟩ := exists_gap hdot
      have hsome := isSome_firstMatch hbefore (by simpa using hc) hmem hgap rest
      rw [hm] at hsome
      cases hsome
  | some m =>
    obtain ⟨hname, hmem, gap, hgap, htext, rfl⟩ := of_firstMatch hwords hafter hnames hm
    have hmarks : ∀ d ∈ gap ++ ['.'], Text.isWord d = false := by
      intro d hd
      rcases List.mem_append.1 hd with hd | hd
      · exact Text.not_isWord_of_isBlank (hgap d hd)
      · exact List.mem_singleton.1 hd ▸ by decide
    have htrim : (Text.trimStart (gap ++ '.' :: m.rest)).head? = some '.' := by
      rw [Text.trimStart, dropWhile_blank hgap rfl]
      rfl
    have hrest : foundFrom (names.map ownerPattern) spans (i + word.length) (word.reverse ++ before) (gap ++ '.' :: m.rest) =
        foundFrom (names.map ownerPattern) spans (i + m.text.length) (m.text.reverse ++ before) m.rest := by
      rw [List.append_cons, foundFrom_marks hnames hmarks, htext]
      simp [Nat.add_assoc]
    rw [hrest]
    by_cases hcode : Text.inSpans spans i = false ∧ Text.followsDot before = false
    · rw [if_pos ⟨hcode.1, hcode.2, hname ▸ hmem, htrim⟩, Await.foundFrom_cons hm (by simp [hcode]), hname]
      rfl
    · rw [if_neg fun h => hcode ⟨h.1, h.2.1⟩, Await.foundFrom_skip hm]
      · rfl
      · rw [Bool.or_eq_true]
        simpa [Decidable.or_iff_not_imp_left] using hcode

theorem namespaceOf?_eq {declared : NameSet} (hdeclared : ∀ name ∈ names, name ∉ declared) :
    namespaceOf? declared (NameSet.ofNames names) ⟨i, before, word, after⟩ =
      if Text.followsDot before = false ∧ String.ofList word ∈ names ∧ (Text.trimStart after).head? = some '.'
      then some (String.ofList word) else none := by
  have hcontains : ∀ {set : NameSet} {n : String}, set.contains n = true ↔ n ∈ set := Std.ExtTreeSet.mem_iff_contains.symm
  have hown : String.ofList word ∈ names → String.ofList word ∉ declared := hdeclared _
  simp only [namespaceOf?, Bool.and_eq_true, Bool.not_eq_true', beq_iff_eq, hcontains, NameSet.mem_ofNames,
    Bool.eq_false_iff (b := Std.ExtTreeSet.contains _ _), Ne]
  refine if_congr ?_ rfl rfl
  tauto

theorem filterMap_word (hnames : ∀ name ∈ names, Text.isVariableName name.toList = true) {declared : NameSet}
    (hdeclared : ∀ name ∈ names, name ∉ declared) :
    ((if Text.isVariableName word then [(⟨i, before, word, after⟩ : Text.Word)] else []).filter fun w =>
        !Text.inSpans spans w.start).filterMap (namespaceOf? declared (NameSet.ofNames names)) =
      if Text.inSpans spans i = false ∧ Text.followsDot before = false ∧ String.ofList word ∈ names ∧
        (Text.trimStart after).head? = some '.' then [String.ofList word] else [] := by
  have hname := @namespaceOf?_eq names i before word after _ hdeclared
  by_cases hmem : String.ofList word ∈ names
  · have hvariable := hnames _ hmem
    rw [String.toList_ofList] at hvariable
    rw [if_pos hvariable]
    cases hspans : Text.inSpans spans i with
    | true => simp [hspans]
    | false =>
      by_cases hnamed : Text.followsDot before = false ∧ String.ofList word ∈ names ∧ (Text.trimStart after).head? = some '.'
      · rw [if_pos hnamed] at hname
        simp [hspans, hname, hnamed]
      · rw [if_neg hnamed] at hname
        rw [if_neg fun h => hnamed h.2]
        simp [hspans, hname]
  · refine Eq.trans (List.filterMap_eq_nil_iff.2 fun w hw => ?_) (if_neg fun h => hmem h.2.2.1).symm
    have hw := (List.mem_filter.1 hw).1
    split at hw
    · rw [List.mem_singleton.1 hw, hname, if_neg fun h => hmem h.2.1]
    · cases hw

theorem foundFrom_owners (hnames : ∀ name ∈ names, Text.isVariableName name.toList = true) {declared : NameSet}
    (hdeclared : ∀ name ∈ names, name ∉ declared)
    (hparted : before.head?.any Text.isWord = true → cs.head?.any Text.isWord = false) :
    foundFrom (names.map ownerPattern) spans i before cs = ((Text.wordsFrom i before cs).filter fun w =>
      !Text.inSpans spans w.start).filterMap (namespaceOf? declared (NameSet.ofNames names)) := by
  induction hlength : cs.length using Nat.strongRecOn generalizing cs before i with
  | _ n ih =>
    subst hlength
    cases cs with
    | nil => exact (Await.foundFrom_eq_nil rfl).trans (by rw [Text.wordsFrom]; rfl)
    | cons c cs =>
      cases hc : Text.isWord c with
      | false =>
        have hrest := @ih cs.length (by simp) (i + 1) (c :: before) cs (by simp [hc]) rfl
        rw [Await.foundFrom_none (firstMatch_eq_none hnames hc), hrest, wordsFrom_mark hc]
      | true =>
        have hbefore : before.head?.any Text.isWord = false := by
          refine Bool.eq_false_iff.2 fun hword => ?_
          have hstop := hparted hword
          rw [List.head?_cons, Option.any_some, hc] at hstop
          cases hstop
        obtain ⟨word, after, rfl, hword, hafter⟩ := exists_run Text.isWord cs
        have hwords : ∀ d ∈ c :: word, Text.isWord d = true := List.forall_mem_cons.2 ⟨hc, hword⟩
        have hshorter : after.length < (c :: (word ++ after)).length := by
          rw [List.length_cons, List.length_append]
          omega
        have hrest := @ih after.length hshorter (i + (c :: word).length) ((c :: word).reverse ++ before) after
          (fun _ => hafter) rfl
        have hne : c :: word ≠ [] := List.cons_ne_nil c word
        rw [← List.cons_append, foundFrom_word hnames hbefore hwords hne hafter, wordsFrom_word hwords hafter hne,
          List.filter_append, List.filterMap_append, hrest, filterMap_word hnames hdeclared]

variable {σ : Type}

/-- The integrations a script invokes are the ones an expression of the same text refers to, where no variable goes by
the name of one. -/
theorem invoked_eq_namespaces (r : Await.Registry σ) (declared : NameSet) (text : String)
    (hnames : ∀ name ∈ r.integrations.namespaces, Text.isVariableName name.toList = true)
    (hdeclared : ∀ name ∈ r.integrations.namespaces, name ∉ declared) :
    (r.invoked text).1 = (scan text declared (NameSet.ofNames r.integrations.namespaces)).namespaces := by
  rw [Await.Registry.invoked_fst, Await.invoked, foundFrom_owners hnames hdeclared (by simp)]
  rfl

def cup : Await.Registry Unit := (Await.Registry.empty.register ⟨"Dice", ∅⟩).register ⟨"DiceBag", ∅⟩

theorem invoked_eq_namespaces_cup :
    (∀ name ∈ cup.integrations.namespaces, Text.isVariableName name.toList = true) ∧
    (∀ name ∈ cup.integrations.namespaces, name ∉ NameSet.ofNames ["bag"]) ∧
    (cup.invoked "bag.Dice.roll() + DiceBag . roll()").1 =
      (scan "bag.Dice.roll() + DiceBag . roll()" (NameSet.ofNames ["bag"])
        (NameSet.ofNames cup.integrations.namespaces)).namespaces ∧
    (cup.invoked "bag.Dice.roll() + DiceBag . roll()").1 = NameSet.ofNames ["DiceBag"] := by
  have hnamespaces : cup.integrations.namespaces = ["Dice", "DiceBag"] := by decide +kernel
  have hnames : ∀ name ∈ cup.integrations.namespaces, Text.isVariableName name.toList = true := by
    rw [hnamespaces]
    decide
  have hdeclared : ∀ name ∈ cup.integrations.namespaces, name ∉ NameSet.ofNames ["bag"] := by
    rw [hnamespaces]
    simp
  have heq := invoked_eq_namespaces cup (NameSet.ofNames ["bag"]) "bag.Dice.roll() + DiceBag . roll()" hnames hdeclared
  refine ⟨hnames, hdeclared, heq, heq.trans ?_⟩
  rw [hnamespaces]
  exact congrArg NameSet.ofNames (by decide +kernel)

end LiveSheet.References
