import LiveSheet.Json.Printer
import LiveSheet.Json.Reader

/-! Reading what was written. The text of a tree is read as the data the tree stands for, whatever follows it, except
that brackets beyond the limit make the data invalid. -/

namespace LiveSheet.Json
open Text.Quoted (encode encodeChar quote)

theorem hexNumber?_control : ∀ n < 32, hexNumber? ['0', '0', (n / 16).digitChar, (n % 16).digitChar] = some n := by
  decide

/-- A character is written as itself, as an escape of one letter, or by its number. -/
theorem encodeChar_cases (c : Char) :
    (encodeChar c = [c] ∧ c ≠ '"' ∧ c ≠ '\\' ∧ ¬c.toNat < 0x20) ∨
    (∃ e, encodeChar c = ['\\', e] ∧ e ≠ 'u' ∧ escape? e = some c) ∨
    (∃ a b, encodeChar c = ['\\', 'u', '0', '0', a, b] ∧ hexNumber? ['0', '0', a, b] = some c.toNat ∧ c.toNat < 0x20) := by
  unfold encodeChar
  by_cases hquote : c = '"'
  · exact .inr (.inl ⟨'"', by simp [hquote], by decide, by simp [hquote, escape?]⟩)
  by_cases hback : c = '\\'
  · exact .inr (.inl ⟨'\\', by simp [hback], by decide, by simp [hback, escape?]⟩)
  by_cases hb : c = '\x08'
  · exact .inr (.inl ⟨'b', by simp [hb], by decide, by simp [hb, escape?]⟩)
  by_cases hf : c = '\x0c'
  · exact .inr (.inl ⟨'f', by simp [hf], by decide, by simp [hf, escape?]⟩)
  by_cases hn : c = '\n'
  · exact .inr (.inl ⟨'n', by simp [hn], by decide, by simp [hn, escape?]⟩)
  by_cases hr : c = '\r'
  · exact .inr (.inl ⟨'r', by simp [hr], by decide, by simp [hr, escape?]⟩)
  by_cases ht : c = '\t'
  · exact .inr (.inl ⟨'t', by simp [ht], by decide, by simp [ht, escape?]⟩)
  simp only [if_neg hquote, if_neg hback, if_neg hb, if_neg hf, if_neg hn, if_neg hr, if_neg ht]
  by_cases hcontrol : c.toNat < 0x20
  · exact .inr (.inr ⟨_, _, if_pos hcontrol, hexNumber?_control _ hcontrol, hcontrol⟩)
  · exact .inl ⟨if_neg hcontrol, hquote, hback, hcontrol⟩

theorem quoted?_encodeChar (c : Char) (rest : List Char) : quoted? (encodeChar c ++ rest) =
    (quoted? rest).map fun (text, left) => (encodeChar c ++ text, left) := by
  rcases encodeChar_cases c with ⟨heq, hquote, hback, hcontrol⟩ | ⟨e, heq, he, hescape⟩ | ⟨a, b, heq, hnumber, _⟩
  · rw [heq, List.singleton_append, quoted?]
    · rw [if_neg (by simp [hback, hcontrol])]
      rfl
    all_goals simp_all
  · rw [heq, List.cons_append, List.singleton_append, quoted?, if_pos (by simp [hescape])]
    · rfl
    · simp_all
  · rw [heq]
    simp only [List.cons_append, List.nil_append, quoted?, hnumber, Option.isSome_some, if_true]

theorem quoted?_encode (cs rest : List Char) : quoted? (encode cs ++ '"' :: rest) = some (encode cs, rest) := by
  induction cs with
  | nil => simp [encode, quoted?]
  | cons c cs ih =>
    have hcons : encode (c :: cs) = encodeChar c ++ encode cs := rfl
    rw [hcons, List.append_assoc, quoted?_encodeChar, ih]
    rfl

theorem unescape?_encodeChar (c : Char) (rest : List Char) :
    unescape? (encodeChar c ++ rest) = (unescape? rest).map (c :: ·) := by
  rcases encodeChar_cases c with ⟨heq, _, hback, _⟩ | ⟨e, heq, he, hescape⟩ | ⟨a, b, heq, hnumber, hcontrol⟩
  · rw [heq, List.singleton_append, unescape?]
    all_goals simp_all
  · rw [heq, List.cons_append, List.singleton_append, unescape?, hescape]
    · rfl
    · simp_all
  · have hlow : isLowSurrogate c.toNat = false := by simp [isLowSurrogate]; omega
    have hhigh : isHighSurrogate c.toNat = false := by simp [isHighSurrogate]; omega
    rw [heq]
    simp only [List.cons_append, List.nil_append, unescape?, hnumber, Option.bind_eq_bind, Option.bind_some, hlow, hhigh,
      Bool.false_eq_true, if_false, Char.ofNat_toNat]

theorem unescape?_encode (cs : List Char) : unescape? (encode cs) = some cs := by
  induction cs with
  | nil => rfl
  | cons c cs ih =>
    have hcons : encode (c :: cs) = encodeChar c ++ encode cs := rfl
    rw [hcons, unescape?_encodeChar, ih]
    rfl

theorem string?_encode (s : String) (rest : List Char) :
    string? (encode s.toList ++ '"' :: rest) = some (some s, rest) := by
  simp only [string?, quoted?_encode, unescape?_encode, Option.map_some, String.ofList_toList]

/-- What follows a written value: nothing, a comma or a line end. -/
def Ends (rest : List Char) : Prop := ∀ c ∈ rest.head?, c = ',' ∨ c = '\n'

theorem Ends.head?_any {rest : List Char} (h : Ends rest) {f : Char → Bool} (hcomma : f ',' = false)
    (hline : f '\n' = false) : rest.head?.any f = false := by
  rw [Option.any_eq_false]
  intro c hc
  rcases h c hc with rfl | rfl
  · simpa using hcomma
  · simpa using hline

theorem span_append {f : Char → Bool} {rest : List Char} (cs : List Char) (h : rest.head?.any f = false) :
    (cs ++ rest).takeWhile f = cs.takeWhile f ∧ (cs ++ rest).dropWhile f = cs.dropWhile f ++ rest := by
  induction cs with
  | nil =>
    cases rest with
    | nil => exact ⟨rfl, rfl⟩
    | cons c rest =>
      have hc : f c = false := by simpa using h
      simp [hc]
  | cons c cs ih =>
    by_cases hc : f c = true
    · simp [hc, ih.1, ih.2]
    · simp [hc]

section Numbers
variable {cs rest part left : List Char}

theorem digits?_append (hrest : Ends rest) (h : digits? cs = some (part, left)) :
    digits? (cs ++ rest) = some (part, left ++ rest) := by
  obtain ⟨htake, hdrop⟩ := span_append cs (hrest.head?_any (f := Char.isDigit) (by decide) (by decide))
  simp only [digits?, htake, hdrop] at h ⊢
  split at h
  · cases h
  · cases h
    exact if_neg ‹_›

theorem whole?_append (hrest : Ends rest) (h : whole? cs = some (part, left)) :
    whole? (cs ++ rest) = some (part, left ++ rest) := by
  obtain ⟨⟨ds, left'⟩, hdigits, h⟩ := Option.bind_eq_some_iff.1 h
  rw [whole?, digits?_append hrest hdigits]
  simp only [Option.bind_eq_bind, Option.bind_some] at h ⊢
  split at h
  · cases h
  · cases h
    exact if_neg ‹_›

theorem fraction?_append (hrest : Ends rest) (h : fraction? cs = some (part, left)) :
    fraction? (cs ++ rest) = some (part, left ++ rest) := by
  cases cs with
  | nil =>
    cases h
    cases rest with
    | nil => rfl
    | cons c rest => rcases hrest c rfl with rfl | rfl <;> rfl
  | cons c cs =>
    by_cases hc : c = '.'
    · subst hc
      obtain ⟨⟨ds, left'⟩, hdigits, h⟩ := Option.bind_eq_some_iff.1 h
      cases h
      rw [List.cons_append, fraction?, digits?_append hrest hdigits]
      rfl
    · have hplain : ∀ cs, fraction? (c :: cs) = some ([], c :: cs) := fun cs => by
        rw [fraction?]
        intro rest heq
        exact hc (List.cons.inj heq).1
      rw [hplain] at h
      cases h
      exact hplain _

def exponentSign : List Char → List Char × List Char
  | '+' :: rest => (['+'], rest)
  | '-' :: rest => (['-'], rest)
  | rest => ([], rest)

theorem exponent?_cons {c : Char} (hc : c = 'e' ∨ c = 'E') (cs : List Char) : exponent? (c :: cs) =
    (digits? (exponentSign cs).2).map fun (ds, rest) => ('e' :: (exponentSign cs).1 ++ ds, rest) := by
  have hopen : exponent? (c :: cs) = do
      let (ds, rest) ← digits? (exponentSign cs).2
      return ('e' :: (exponentSign cs).1 ++ ds, rest) := if_pos hc
  rw [hopen]
  cases digits? (exponentSign cs).2 <;> rfl

theorem exponentSign_append (hrest : Ends rest) (cs : List Char) :
    exponentSign (cs ++ rest) = ((exponentSign cs).1, (exponentSign cs).2 ++ rest) := by
  cases cs with
  | nil =>
    cases rest with
    | nil => rfl
    | cons c rest => rcases hrest c rfl with rfl | rfl <;> rfl
  | cons c cs =>
    by_cases hplus : c = '+'
    · subst hplus
      rfl
    · by_cases hminus : c = '-'
      · subst hminus
        rfl
      · have hplain : ∀ cs, exponentSign (c :: cs) = ([], c :: cs) := fun cs => by
          unfold exponentSign
          split <;> simp_all
        rw [List.cons_append, hplain, hplain]
        rfl

theorem exponent?_append (hrest : Ends rest) (h : exponent? cs = some (part, left)) :
    exponent? (cs ++ rest) = some (part, left ++ rest) := by
  cases cs with
  | nil =>
    cases h
    cases rest with
    | nil => rfl
    | cons c rest => rcases hrest c rfl with rfl | rfl <;> rfl
  | cons c cs =>
    by_cases hc : c = 'e' ∨ c = 'E'
    · rw [exponent?_cons hc] at h
      obtain ⟨⟨ds, left'⟩, hdigits, h⟩ := Option.map_eq_some_iff.1 h
      cases h
      rw [List.cons_append, exponent?_cons hc, exponentSign_append hrest, digits?_append hrest hdigits]
      rfl
    · have hplain : ∀ cs, exponent? (c :: cs) = some ([], c :: cs) := fun cs => by
        unfold exponent?
        exact if_neg hc
      rw [hplain] at h
      cases h
      exact hplain _

def numberSign : List Char → List Char × List Char
  | '-' :: rest => (['-'], rest)
  | rest => ([], rest)

theorem literal?_eq (cs : List Char) : literal? cs = do
    let (ds, rest) ← whole? (numberSign cs).2
    let (fraction, rest) ← fraction? rest
    let (exponent, rest) ← exponent? rest
    return ((numberSign cs).1 ++ ds ++ fraction ++ exponent, rest) := rfl

theorem numberSign_append (hne : cs ≠ []) (rest : List Char) :
    numberSign (cs ++ rest) = ((numberSign cs).1, (numberSign cs).2 ++ rest) := by
  cases cs with
  | nil => exact absurd rfl hne
  | cons c cs =>
    by_cases hminus : c = '-'
    · subst hminus
      rfl
    · have hplain : ∀ cs, numberSign (c :: cs) = ([], c :: cs) := fun cs => by
        unfold numberSign
        split <;> simp_all
      rw [List.cons_append, hplain, hplain]
      rfl

theorem literal?_append (hrest : Ends rest) (h : literal? cs = some (part, left)) :
    literal? (cs ++ rest) = some (part, left ++ rest) := by
  have hne : cs ≠ [] := by
    rintro rfl
    cases h
  rw [literal?_eq] at h
  obtain ⟨⟨ds, afterWhole⟩, hwhole, h⟩ := Option.bind_eq_some_iff.1 h
  obtain ⟨⟨fraction, afterFraction⟩, hfraction, h⟩ := Option.bind_eq_some_iff.1 h
  obtain ⟨⟨exponent, afterExponent⟩, hexponent, h⟩ := Option.bind_eq_some_iff.1 h
  cases h
  rw [literal?_eq, numberSign_append hne, whole?_append hrest hwhole]
  simp only [Option.bind_eq_bind, Option.bind_some, fraction?_append hrest hfraction, exponent?_append hrest hexponent]
  rfl

end Numbers

section Blanks
variable {n depth : Nat} {ws cs rest : List Char}

theorem skipSpace_append (h : ∀ c ∈ ws, isSpace c = true) (cs : List Char) : skipSpace (ws ++ cs) = skipSpace cs := by
  induction ws with
  | nil => rfl
  | cons c ws ih =>
    obtain ⟨hc, hws⟩ := List.forall_mem_cons.1 h
    rw [List.cons_append, skipSpace, List.dropWhile_cons_of_pos hc]
    exact ih hws

theorem skipSpace_lineAt (k : Nat) (cs : List Char) : skipSpace (lineAt k ++ cs) = skipSpace cs := by
  refine skipSpace_append (fun c hc => ?_) cs
  rcases List.mem_cons.1 hc with rfl | hc
  · rfl
  · rw [List.eq_of_mem_replicate hc]
    rfl

theorem skipSpace_skipSpace (cs : List Char) : skipSpace (skipSpace cs) = skipSpace cs := by
  induction cs with
  | nil => rfl
  | cons c cs ih =>
    by_cases hc : isSpace c = true
    · have hdrop : skipSpace (c :: cs) = skipSpace cs := List.dropWhile_cons_of_pos hc
      rw [hdrop, ih]
    · have hkeep : skipSpace (c :: cs) = c :: cs := List.dropWhile_cons_of_neg hc
      rw [hkeep, hkeep]

theorem isSpace_of_skipSpace (h : skipSpace cs = []) : ∀ c ∈ cs, isSpace c = true := by
  induction cs with
  | nil => simp
  | cons c cs ih =>
    by_cases hc : isSpace c = true
    · rw [skipSpace, List.dropWhile_cons_of_pos hc] at h
      exact List.forall_mem_cons.2 ⟨hc, ih h⟩
    · rw [skipSpace, List.dropWhile_cons_of_neg hc] at h
      cases h

theorem value?_congr (h : skipSpace cs = skipSpace rest) : value? n depth cs = value? n depth rest := by
  cases n with
  | zero => rfl
  | succ n => rw [value?, value?, h]

theorem items?_congr (h : skipSpace cs = skipSpace rest) : items? n depth cs = items? n depth rest := by
  cases n with
  | zero => rfl
  | succ n => rw [items?, items?, value?_congr h]

theorem members?_congr (h : skipSpace cs = skipSpace rest) : members? n depth cs = members? n depth rest := by
  cases n with
  | zero => rfl
  | succ n => rw [members?, members?, h]

theorem value?_bracket (h : skipSpace cs = ']' :: rest) : value? n depth cs = none := by
  cases n with
  | zero => rfl
  | succ n =>
    rw [value?, h]
    rfl

theorem items?_bracket (h : skipSpace cs = ']' :: rest) : items? n depth cs = none := by
  cases n with
  | zero => rfl
  | succ n =>
    rw [items?, value?_bracket h]
    rfl

end Blanks

mutual

/-- The data a written tree is read as where brackets may nest to a depth. -/
def datum (depth : Nat) : Json → Datum
  | null => .null
  | bool b => .bool b
  | number literal => (parse? literal).getD .invalid
  | string s => .string s
  | array items => if depth = 0 then .invalid else .array (data (depth - 1) items)
  | object members => if depth = 0 then .invalid else .table (entries (depth - 1) members)

def data (depth : Nat) : List Json → List Datum
  | [] => []
  | item :: items => item.datum depth :: data depth items

def entries (depth : Nat) : List (String × Json) → List (String × Datum)
  | [] => []
  | (key, value) :: members => (key, value.datum depth) :: entries depth members

end

mutual

/-- The literals of a tree are numbers. -/
def Numbered : Json → Prop
  | number literal => ∃ x, parse? literal = some (.number x)
  | array items => NumberedItems items
  | object members => NumberedMembers members
  | null => True
  | bool _ => True
  | string _ => True

def NumberedItems : List Json → Prop
  | [] => True
  | item :: items => item.Numbered ∧ NumberedItems items

def NumberedMembers : List (String × Json) → Prop
  | [] => True
  | (_, value) :: members => value.Numbered ∧ NumberedMembers members

end

theorem entries_eq_map (depth : Nat) (members : List (String × Json)) :
    entries depth members = members.map fun (key, value) => (key, value.datum depth) := by
  induction members with
  | nil => rfl
  | cons member members ih => rw [entries, ih, List.map_cons]

theorem numberedMembers_iff {members : List (String × Json)} :
    NumberedMembers members ↔ ∀ member ∈ members, member.2.Numbered := by
  induction members with
  | nil => simp [NumberedMembers]
  | cons member members ih => rw [NumberedMembers, ih, List.forall_mem_cons]

theorem ofMembers_entries (depth : Nat) (members : List (String × Json)) :
    ofMembers ((entries depth members).map fun (key, value) => (some key, value)) = .table (entries depth members) := by
  have hkeys : ∀ entries : List (String × Datum), (entries.map fun (key, value) => (some key, value)).mapM
      (fun m : Option String × Datum => m.1.map (·, m.2)) = some entries := by
    intro entries
    induction entries with
    | nil => rfl
    | cons entry entries ih => simp [ih]
  rw [ofMembers, hkeys]
  rfl

section Brackets
variable {n depth : Nat} {cs rest left : List Char}

theorem value?_array_nil (h : skipSpace cs = '[' :: rest) (hrest : skipSpace rest = ']' :: left) :
    value? (n + 1) depth cs = some (if depth = 0 then .invalid else .array [], left) := by
  rw [value?, h]
  simp only [hrest]
  rfl

theorem value?_array (h : skipSpace cs = '[' :: rest) (hrest : ∀ left, skipSpace rest ≠ ']' :: left) :
    value? (n + 1) depth cs = (items? n (depth - 1) rest).map fun (items, left) =>
      (if depth = 0 then .invalid else .array items, left) := by
  rw [value?, h]
  simp only [← items?_congr (skipSpace_skipSpace rest)]
  cases items? n (depth - 1) (skipSpace rest) <;> rfl

theorem value?_object_nil (h : skipSpace cs = '\x7b' :: rest) (hrest : skipSpace rest = '\x7d' :: left) :
    value? (n + 1) depth cs = some (if depth = 0 then .invalid else .table [], left) := by
  rw [value?, h]
  simp only [hrest]
  rfl

theorem value?_object (h : skipSpace cs = '\x7b' :: rest) (hrest : ∀ left, skipSpace rest ≠ '\x7d' :: left) :
    value? (n + 1) depth cs = (members? n (depth - 1) rest).map fun (members, left) =>
      (if depth = 0 then .invalid else ofMembers members, left) := by
  rw [value?, h]
  simp only [← members?_congr (skipSpace_skipSpace rest)]
  cases members? n (depth - 1) (skipSpace rest) <;> rfl

end Brackets

theorem ofMembers_ne_number (members : List (Option String × Datum)) (x : Float) : ofMembers members ≠ .number x := by
  unfold ofMembers
  cases members.mapM fun m : Option String × Datum => m.1.map (·, m.2) <;> simp

theorem value?_literal {cs rest : List Char} {c : Char} (h : skipSpace cs = c :: rest)
    (hc : c ∉ ['"', 'n', 't', 'f', '[', '\x7b']) (n depth : Nat) : value? (n + 1) depth cs =
      (literal? (c :: rest)).map fun (literal, left) => (((float? literal).map Datum.number).getD .invalid, left) := by
  rw [value?, h]
  simp only [List.mem_cons, List.not_mem_nil, or_false, not_or] at hc
  split <;> simp_all

theorem value?_eq_number {n depth : Nat} {cs left : List Char} {x : Float}
    (h : value? (n + 1) depth cs = some (.number x, left)) : ∃ c rest literal, skipSpace cs = c :: rest ∧
      c ∉ ['"', 'n', 't', 'f', '[', '\x7b'] ∧ literal? (c :: rest) = some (literal, left) ∧ float? literal = some x := by
  cases hs : skipSpace cs with
  | nil => simp [value?, hs] at h
  | cons c rest =>
    have hc : c ∉ ['"', 'n', 't', 'f', '[', '\x7b'] := by
      intro hc
      simp only [List.mem_cons, List.not_mem_nil, or_false] at hc
      rcases hc with rfl | rfl | rfl | rfl | rfl | rfl
      · rw [value?, hs] at h
        obtain ⟨⟨_ | _, _⟩, _, heq⟩ := Option.map_eq_some_iff.1 h <;> cases heq
      · rw [value?, hs] at h
        obtain ⟨_, _, heq⟩ := Option.map_eq_some_iff.1 h
        cases heq
      · rw [value?, hs] at h
        obtain ⟨_, _, heq⟩ := Option.map_eq_some_iff.1 h
        cases heq
      · rw [value?, hs] at h
        obtain ⟨_, _, heq⟩ := Option.map_eq_some_iff.1 h
        cases heq
      · by_cases hrest : ∃ left, skipSpace rest = ']' :: left
        · rw [value?_array_nil hs hrest.choose_spec] at h
          split at h <;> cases h
        · rw [value?_array hs (not_exists.1 hrest)] at h
          obtain ⟨_, _, heq⟩ := Option.map_eq_some_iff.1 h
          have heq := (Prod.mk.inj heq).1
          split at heq <;> cases heq
      · by_cases hrest : ∃ left, skipSpace rest = '\x7d' :: left
        · rw [value?_object_nil hs hrest.choose_spec] at h
          split at h <;> cases h
        · rw [value?_object hs (not_exists.1 hrest)] at h
          obtain ⟨_, _, heq⟩ := Option.map_eq_some_iff.1 h
          have heq := (Prod.mk.inj heq).1
          split at heq
          · cases heq
          · exact ofMembers_ne_number _ x heq
    rw [value?_literal hs hc] at h
    obtain ⟨⟨literal, left'⟩, hliteral, h⟩ := Option.map_eq_some_iff.1 h
    obtain ⟨hx, rfl⟩ := Prod.mk.inj h
    refine ⟨c, rest, literal, rfl, hc, hliteral, ?_⟩
    cases hfloat : float? literal with
    | none => simp [hfloat] at hx
    | some y => simpa [hfloat] using hx

theorem parse?_eq_some {text : String} {d : Datum} : parse? text = some d ↔ ∃ left,
    value? (2 * text.toList.length + 2) depthLimit text.toList = some (d, left) ∧ skipSpace left = [] := by
  have hopen : parse? text = (value? (2 * text.toList.length + 2) depthLimit text.toList).bind fun read =>
      if (skipSpace read.2).isEmpty then some read.1 else none := rfl
  rw [hopen, Option.bind_eq_some_iff]
  constructor
  · rintro ⟨⟨value, left⟩, hvalue, h⟩
    simp only [Option.ite_none_right_eq_some, Option.some.injEq, List.isEmpty_iff] at h
    exact ⟨left, h.2 ▸ hvalue, h.1⟩
  · rintro ⟨left, hvalue, hleft⟩
    exact ⟨_, hvalue, by simp [hleft]⟩

theorem value?_numeral {literal : String} {x : Float} (hliteral : parse? literal = some (.number x)) {rest : List Char}
    (hrest : Ends rest) (n depth : Nat) : ∃ left, value? (n + 1) depth (literal.toList ++ rest) = some (.number x, left) ∧
      skipSpace left = skipSpace rest := by
  obtain ⟨left, hvalue, hblank⟩ := parse?_eq_some.1 hliteral
  obtain ⟨c, tail, digits, hs, hc, hdigits, hx⟩ := value?_eq_number hvalue
  have hskip : skipSpace (literal.toList ++ rest) = c :: (tail ++ rest) := by
    rw [skipSpace, List.dropWhile_append]
    change (if (skipSpace literal.toList).isEmpty = true then _ else skipSpace literal.toList ++ rest) = _
    rw [hs]
    rfl
  refine ⟨left ++ rest, ?_, skipSpace_append (fun c hc => ?_) rest⟩
  · rw [value?_literal hskip hc, ← List.cons_append, literal?_append hrest hdigits]
    simp only [Option.map_some, hx, Option.getD_some]
  · exact isSpace_of_skipSpace hblank c hc

section Lines
variable {k m depth : Nat} {rest : List Char}

theorem ends_lineAt (k : Nat) (rest : List Char) : Ends (lineAt k ++ rest) := by
  rintro c ⟨⟩
  exact .inr rfl

theorem ends_comma (rest : List Char) : Ends (',' :: rest) := by
  rintro c ⟨⟩
  exact .inl rfl

theorem members?_brace {cs : List Char} {n : Nat} (h : skipSpace cs = '\x7d' :: rest) : members? n depth cs = none := by
  cases n with
  | zero => rfl
  | succ n =>
    rw [members?, h]
    rfl

theorem members?_key (n depth : Nat) (key : String) (rest : List Char) :
    members? (n + 1) depth ('"' :: (encode key.toList ++ '"' :: ':' :: ' ' :: rest)) =
      (value? n depth rest).bind fun (value, left) => match skipSpace left with
        | ',' :: left => (members? n depth left).bind fun (members, left) => some ((some key, value) :: members, left)
        | '\x7d' :: left => some ([(some key, value)], left)
        | _ => none := by
  have hblank : value? n depth (' ' :: rest) = value? n depth rest := value?_congr rfl
  rw [← hblank, members?]
  change (string? (encode key.toList ++ _)).bind _ = _
  rw [string?_encode]
  rfl

theorem intercalate_cons_cons (sep x y : List Char) (items : List (List Char)) :
    sep.intercalate (x :: y :: items) = x ++ sep ++ sep.intercalate (y :: items) := by
  simp [List.intercalate]

end Lines

mutual

theorem value?_prettyChars (k depth : Nat) : (j : Json) → j.Numbered → ∀ (n : Nat) (rest : List Char),
    2 * (j.prettyChars k).length + 1 ≤ n → Ends rest →
    ∃ left, value? n depth (j.prettyChars k ++ rest) = some (j.datum depth, left) ∧ skipSpace left = skipSpace rest
  | null, _, n + 1, rest, _, _ => ⟨rest, rfl, rfl⟩
  | bool true, _, n + 1, rest, _, _ => ⟨rest, rfl, rfl⟩
  | bool false, _, n + 1, rest, _, _ => ⟨rest, rfl, rfl⟩
  | number literal, ⟨x, hx⟩, n + 1, rest, _, hrest => by
    obtain ⟨left, hvalue, hleft⟩ := value?_numeral hx hrest n depth
    refine ⟨left, ?_, hleft⟩
    rw [prettyChars, datum, hx]
    exact hvalue
  | string s, _, n + 1, rest, _, _ => by
    refine ⟨rest, ?_, rfl⟩
    have htext : (string s).prettyChars k ++ rest = '"' :: (encode s.toList ++ '"' :: rest) := by
      simp [prettyChars, quote]
    rw [htext, value?]
    change (string? (encode s.toList ++ '"' :: rest)).map _ = _
    rw [string?_encode]
    rfl
  | array [], _, n + 1, rest, _, _ => ⟨rest, value?_array_nil rfl rfl, rfl⟩
  | array (item :: items), hnumbered, n + 1, rest, hn, _ => by
    have htext : (array (item :: items)).prettyChars k ++ rest = '[' :: (lineAt (k + 1) ++
        ((',' :: lineAt (k + 1)).intercalate (prettyItems (k + 1) (item :: items)) ++ lineAt k ++ ']' :: rest)) := by
      simp [prettyChars, prettyItems, encloseLines]
    have hitems := items?_prettyItems (k + 1) k (depth - 1) (item :: items) hnumbered (List.cons_ne_nil _ _)
      n rest (by simp [prettyChars, prettyItems, encloseLines, lineAt] at hn ⊢; omega)
    refine ⟨rest, ?_, rfl⟩
    rw [htext, value?_array rfl, items?_congr (skipSpace_lineAt _ _), hitems]
    · rfl
    · intro left hleft
      rw [skipSpace_lineAt] at hleft
      rw [items?_bracket hleft] at hitems
      cases hitems
  | object [], _, n + 1, rest, _, _ => ⟨rest, value?_object_nil rfl rfl, rfl⟩
  | object (member :: members), hnumbered, n + 1, rest, hn, _ => by
    have htext : (object (member :: members)).prettyChars k ++ rest = '\x7b' :: (lineAt (k + 1) ++
        ((',' :: lineAt (k + 1)).intercalate (prettyMembers (k + 1) (member :: members)) ++ lineAt k ++
          '\x7d' :: rest)) := by
      simp [prettyChars, prettyMembers, encloseLines]
    have hmembers := members?_prettyMembers (k + 1) k (depth - 1) (member :: members) hnumbered (List.cons_ne_nil _ _)
      n rest (by simp [prettyChars, prettyMembers, encloseLines, lineAt] at hn ⊢; omega)
    refine ⟨rest, ?_, rfl⟩
    rw [htext, value?_object rfl, members?_congr (skipSpace_lineAt _ _), hmembers]
    · simp only [Option.map_some, ofMembers_entries]
      rfl
    · intro left hleft
      rw [skipSpace_lineAt] at hleft
      rw [members?_brace hleft] at hmembers
      cases hmembers

theorem items?_prettyItems (k m depth : Nat) : (items : List Json) → NumberedItems items → items ≠ [] →
    ∀ (n : Nat) (rest : List Char), 2 * ((',' :: lineAt k).intercalate (prettyItems k items)).length + 2 ≤ n →
    items? n depth ((',' :: lineAt k).intercalate (prettyItems k items) ++ lineAt m ++ ']' :: rest) =
      some (data depth items, rest)
  | [item], hnumbered, _, n + 1, rest, hn => by
    obtain ⟨left, hvalue, hleft⟩ := value?_prettyChars k depth item hnumbered.1 n _
      (by simp [prettyItems, List.intercalate] at hn; omega) (ends_lineAt m (']' :: rest))
    have htext : (',' :: lineAt k).intercalate (prettyItems k [item]) ++ lineAt m ++ ']' :: rest =
        item.prettyChars k ++ (lineAt m ++ ']' :: rest) := by simp [prettyItems, List.intercalate]
    rw [htext, items?, hvalue]
    simp only [Option.bind_eq_bind, Option.bind_some, hleft, skipSpace_lineAt]
    rfl
  | item :: next :: items, hnumbered, _, n + 1, rest, hn => by
    have hmany : prettyItems k (item :: next :: items) =
      item.prettyChars k :: next.prettyChars k :: prettyItems k items := rfl
    rw [hmany, intercalate_cons_cons] at hn ⊢
    obtain ⟨left, hvalue, hleft⟩ := value?_prettyChars k depth item hnumbered.1 n _
      (by simp at hn; omega) (ends_comma (lineAt k ++ ((',' :: lineAt k).intercalate
        (prettyItems k (next :: items)) ++ lineAt m ++ ']' :: rest)))
    have hitems := items?_prettyItems k m depth (next :: items) hnumbered.2 (List.cons_ne_nil _ _) n rest
      (by simp [prettyItems] at hn ⊢; omega)
    have htext : item.prettyChars k ++ ',' :: lineAt k ++
        (',' :: lineAt k).intercalate (next.prettyChars k :: prettyItems k items) ++ lineAt m ++ ']' :: rest =
        item.prettyChars k ++ ',' :: (lineAt k ++ ((',' :: lineAt k).intercalate
          (prettyItems k (next :: items)) ++ lineAt m ++ ']' :: rest)) := by simp [prettyItems]
    rw [htext, items?, hvalue]
    simp only [Option.bind_eq_bind, Option.bind_some, hleft]
    change (items? n depth (lineAt k ++ _)).bind _ = _
    rw [items?_congr (skipSpace_lineAt _ _), hitems]
    rfl

theorem members?_prettyMembers (k m depth : Nat) : (members : List (String × Json)) → NumberedMembers members →
    members ≠ [] → ∀ (n : Nat) (rest : List Char),
    2 * ((',' :: lineAt k).intercalate (prettyMembers k members)).length + 2 ≤ n →
    members? n depth ((',' :: lineAt k).intercalate (prettyMembers k members) ++ lineAt m ++ '\x7d' :: rest) =
      some ((entries depth members).map fun (key, value) => (some key, value), rest)
  | [(key, value)], hnumbered, _, n + 1, rest, hn => by
    obtain ⟨left, hvalue, hleft⟩ := value?_prettyChars k depth value hnumbered.1 n _
      (by simp [prettyMembers, List.intercalate] at hn; omega) (ends_lineAt m ('\x7d' :: rest))
    have htext : (',' :: lineAt k).intercalate (prettyMembers k [(key, value)]) ++ lineAt m ++ '\x7d' :: rest =
        '"' :: (encode key.toList ++ '"' :: ':' :: ' ' :: (value.prettyChars k ++ (lineAt m ++ '\x7d' :: rest))) := by
      simp [prettyMembers, List.intercalate, quote]
    rw [htext, members?_key, hvalue]
    simp only [Option.bind_some, hleft, skipSpace_lineAt]
    rfl
  | (key, value) :: (name, next) :: members, hnumbered, _, n + 1, rest, hn => by
    have hmany : prettyMembers k ((key, value) :: (name, next) :: members) =
      (quote key.toList ++ ':' :: ' ' :: value.prettyChars k) ::
        (quote name.toList ++ ':' :: ' ' :: next.prettyChars k) :: prettyMembers k members := rfl
    rw [hmany, intercalate_cons_cons] at hn ⊢
    obtain ⟨left, hvalue, hleft⟩ := value?_prettyChars k depth value hnumbered.1 n _
      (by simp at hn; omega) (ends_comma (lineAt k ++ ((',' :: lineAt k).intercalate
        (prettyMembers k ((name, next) :: members)) ++ lineAt m ++ '\x7d' :: rest)))
    have hmembers := members?_prettyMembers k m depth ((name, next) :: members) hnumbered.2 (List.cons_ne_nil _ _)
      n rest (by simp [prettyMembers] at hn ⊢; omega)
    have htext : quote key.toList ++ ':' :: ' ' :: value.prettyChars k ++ ',' :: lineAt k ++
        (',' :: lineAt k).intercalate ((quote name.toList ++ ':' :: ' ' :: next.prettyChars k) ::
          prettyMembers k members) ++ lineAt m ++ '\x7d' :: rest =
        '"' :: (encode key.toList ++ '"' :: ':' :: ' ' :: (value.prettyChars k ++ ',' :: (lineAt k ++
          ((',' :: lineAt k).intercalate (prettyMembers k ((name, next) :: members)) ++ lineAt m ++
            '\x7d' :: rest)))) := by
      simp [prettyMembers, quote]
    rw [htext, members?_key, hvalue]
    simp only [Option.bind_some, hleft]
    change (members? n depth (lineAt k ++ _)).bind _ = _
    rw [members?_congr (skipSpace_lineAt _ _), hmembers]
    rfl

end

theorem parse?_pretty {j : Json} (h : j.Numbered) : parse? j.pretty = some (j.datum depthLimit) := by
  obtain ⟨left, hvalue, hleft⟩ := value?_prettyChars 0 depthLimit j h (2 * j.pretty.toList.length + 2) []
    (by simp [pretty]) (by simp [Ends])
  refine parse?_eq_some.2 ⟨left, ?_, hleft⟩
  simpa [pretty] using hvalue

end LiveSheet.Json
