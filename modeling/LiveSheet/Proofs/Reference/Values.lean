import LiveSheet.Proofs.Reference.Sequenced
import LiveSheet.Value.Text

/-! What a reader comes past in the source text of a value. Strings hide what they hold, numbers start with a digit,
and what is left are the words of the constants. -/

namespace LiveSheet.References

/-- The words in source texts of values. -/
def constants : List String := ["true", "false", "null", "NaN", "Infinity"]

def Finding.IsConstant (x : Finding) : Prop := ∃ w ∈ constants, x = .name w.toList

/-- Nothing that a value could go on with. -/
def Sight.Calm (s : Sight) : Prop := s = .other ∨ s = .slash

/-- A value, or a mark that leaves nothing behind. -/
def Sight.Spent (s : Sight) : Prop := s = .other ∨ ∃ name bare whole, s = .word name bare whole ∧ name ≠ "this".toList ∧
  (Text.isVariableName name = true → ∃ w ∈ constants, name = w.toList)

/-- From sights of one kind, a reader goes in code along a text to sights of another and finds nothing but constants. -/
def Mild (P Q : Sight → Prop) (cs : List Char) : Prop := ∀ braces s, P s → ∃ s', Q s' ∧
  (⟨.code, braces, s⟩ : Reader).after cs = ⟨.code, braces, s'⟩ ∧
    ∀ x ∈ (⟨.code, braces, s⟩ : Reader).findings cs, x.IsConstant

variable {P Q R : Sight → Prop} {cs xs ys : List Char}

namespace Mild

theorem nil (h : ∀ s, P s → Q s) : Mild P Q [] := fun _ s hs => ⟨s, h s hs, rfl, fun _ hx => by cases hx⟩

theorem append (hx : Mild P Q xs) (hy : Mild Q R ys) : Mild P R (xs ++ ys) := by
  intro braces s hs
  obtain ⟨s₁, hs₁, hafter, hfound⟩ := hx braces s hs
  obtain ⟨s₂, hs₂, hafter', hfound'⟩ := hy braces s₁ hs₁
  refine ⟨s₂, hs₂, by rw [Reader.after_append, hafter, hafter'], fun x hmem => ?_⟩
  rw [Reader.findings_append, hafter] at hmem
  rcases List.mem_append.1 hmem with hmem | hmem
  · exact hfound x hmem
  · exact hfound' x hmem

theorem single {c : Char} (hc : c ∉ limits) (hnext : ∀ s, P s → Q (s.next c))
    (hfound : ∀ s, P s → ∀ x ∈ (⟨.code, [], s⟩ : Reader).finds c, x.IsConstant) : Mild P Q [c] := by
  intro braces s hs
  refine ⟨s.next c, hnext s hs, Reader.next_code braces s hc, fun x hmem => hfound s hs x ?_⟩
  rw [Reader.findings_cons, Reader.findings_nil, List.append_nil] at hmem
  exact hmem

theorem cons {c : Char} (hc : Mild P Q [c]) (hcs : Mild Q R cs) : Mild P R (c :: cs) := hc.append hcs

end Mild

theorem Sight.Calm.settled {s : Sight} (h : s.Calm) : s.settled = s := by
  rcases h with rfl | rfl <;> rfl

theorem Sight.Spent.settled {s : Sight} (h : s.Spent) : s.settled = .other := by
  rcases h with rfl | ⟨name, bare, whole, rfl, hthis, _⟩
  · rfl
  · exact if_neg fun h => hthis h.2

theorem finds_spent {s : Sight} (hs : s.Spent) (c : Char) : ∀ x ∈ (⟨.code, [], s⟩ : Reader).finds c, x.IsConstant := by
  intro x hx
  have hmisread : s.settled.isMisread c = false := by rw [hs.settled]; rfl
  simp only [Reader.finds, hmisread, Bool.false_eq_true, if_false, List.nil_append, List.mem_map, Option.mem_toList,
    Option.filter_eq_some_iff] at hx
  obtain ⟨name, ⟨hended, hname⟩, rfl⟩ := hx
  rcases hs with rfl | ⟨name', bare, whole, rfl, _, hconstant⟩
  · cases hended
  · have heq : name' = name := by
      cases bare with
      | false => cases hended
      | true =>
        simp only [Sight.ended?] at hended
        split at hended
        · cases hended
        · exact Option.some.inj hended
    subst heq
    obtain ⟨w, hw, heq⟩ := hconstant hname
    exact ⟨w, hw, by rw [heq]⟩

theorem finds_calm {s : Sight} (hs : s.Calm) {c : Char} (hc : c ≠ '/') : ∀ x ∈ (⟨.code, [], s⟩ : Reader).finds c, x.IsConstant := by
  intro x hx
  rcases hs with rfl | rfl
  · cases hx
  · simp [Reader.finds, Sight.settled, Sight.isMisread, Sight.ended?, hc] at hx

theorem mild_word (hcs : ∀ c ∈ cs, Text.isWord c = true) (hne : cs ≠ []) (hthis : cs ≠ "this".toList)
    (hname : Text.isVariableName cs = true → ∃ w ∈ constants, cs = w.toList) : Mild Sight.Calm Sight.Spent cs := by
  intro braces s hs
  have hafter : s.after cs = .word cs (decide (s ≠ .dot)) true := Sight.after_whole hcs hne (by rcases hs with rfl | rfl <;> simp)
  have hlimits : ∀ c ∈ cs, c ∉ limits := fun c hc hmem => by
    have hword := hcs c hc
    rw [(mark_class hmem).1] at hword
    cases hword
  refine ⟨_, .inr ⟨cs, _, _, hafter, hthis, hname⟩, Reader.after_code braces s hlimits, fun x hx => ?_⟩
  rw [findings_word hcs] at hx
  cases hx

theorem mild_constant {w : String} (hw : w ∈ constants) : Mild Sight.Calm Sight.Spent w.toList := by
  have hclass : ∀ w ∈ constants, (∀ c ∈ w.toList, Text.isWord c = true) ∧ w.toList ≠ [] ∧ w.toList ≠ "this".toList := by decide
  obtain ⟨hword, hne, hthis⟩ := hclass w hw
  exact mild_word hword hne hthis fun _ => ⟨w, hw, rfl⟩

/-! Strings. -/

/-- A reader goes along in a string and sees nothing. -/
def Hides (cs : List Char) : Prop := ∀ braces, (⟨.quoted '"' false, braces, .other⟩ : Reader).after cs =
  ⟨.quoted '"' false, braces, .other⟩ ∧ (⟨.quoted '"' false, braces, .other⟩ : Reader).findings cs = []

theorem Hides.append (hx : Hides xs) (hy : Hides ys) : Hides (xs ++ ys) := by
  intro braces
  rw [Reader.after_append, Reader.findings_append, (hx braces).1, (hx braces).2, (hy braces).1, (hy braces).2]
  exact ⟨rfl, rfl⟩

theorem hides_plain (h : ∀ c ∈ cs, c ≠ '"' ∧ c ≠ '\\') : Hides cs := by
  induction cs with
  | nil => exact fun _ => ⟨rfl, rfl⟩
  | cons c cs ih =>
    obtain ⟨⟨hquote, hslash⟩, hcs⟩ := List.forall_mem_cons.1 h
    intro braces
    have hnext : (⟨.quoted '"' false, braces, .other⟩ : Reader).next c = ⟨.quoted '"' false, braces, .other⟩ := by
      simp [Reader.next, hquote, hslash, Sight.nextQuoted]
    rw [Reader.after_cons, Reader.findings_cons, hnext, (ih hcs braces).1, (ih hcs braces).2]
    exact ⟨rfl, rfl⟩

theorem hides_escaped (c : Char) : Hides ['\\', c] := fun _ => ⟨rfl, rfl⟩

theorem hides_encodeChar (c : Char) : Hides (Text.Quoted.encodeChar c) := by
  unfold Text.Quoted.encodeChar
  split
  · exact hides_escaped '"'
  · split
    · exact hides_escaped '\\'
    · split
      · exact hides_escaped 'b'
      · split
        · exact hides_escaped 'f'
        · split
          · exact hides_escaped 'n'
          · split
            · exact hides_escaped 'r'
            · split
              · exact hides_escaped 't'
              · split
                · next hlow =>
                  have hdigits : ∀ n < 16, n.digitChar ≠ '"' ∧ n.digitChar ≠ '\\' := by decide
                  have hhigh := hdigits (c.toNat / 16) (by omega)
                  have hlow := hdigits (c.toNat % 16) (by omega)
                  exact (hides_escaped 'u').append (hides_plain (by simp [hhigh, hlow]))
                · next hquote hslash _ _ _ _ _ _ => exact hides_plain (by simp [hquote, hslash])

theorem hides_encode (cs : List Char) : Hides (Text.Quoted.encode cs) := by
  induction cs with
  | nil => exact fun _ => ⟨rfl, rfl⟩
  | cons c cs ih => exact (hides_encodeChar c).append ih

theorem mild_quote (cs : List Char) : Mild Sight.Calm Sight.Spent (Text.Quoted.quote cs) := by
  intro braces s hs
  have hopen : (⟨.code, braces, s⟩ : Reader).next '"' = ⟨.quoted '"' false, braces, .other⟩ := by
    have hsight : s.next '"' = .other := by
      rw [s.next_quote rfl, hs.settled, if_neg (by rcases hs with rfl | rfl <;> simp)]
    simp [Reader.next, isQuote, hsight]
  have hclose : (⟨.quoted '"' false, braces, .other⟩ : Reader).next '"' = ⟨.code, braces, .other⟩ := by
    simp [Reader.next, Sight.nextQuoted]
  obtain ⟨hafter, hfindings⟩ := hides_encode cs braces
  refine ⟨.other, .inl rfl, ?_, fun x hx => ?_⟩
  · rw [Text.Quoted.quote, List.cons_append, Reader.after_cons, hopen, Reader.after_append, hafter, Reader.after_cons, hclose]
    rfl
  · have hend : (⟨.quoted '"' false, braces, .other⟩ : Reader).findings ['"'] = [] := rfl
    rw [Text.Quoted.quote, List.cons_append, Reader.findings_cons, hopen, Reader.findings_append, hfindings, hafter, hend,
      List.append_nil, List.append_nil] at hx
    exact finds_calm hs (c := '"') (by decide) x hx

/-! Numbers. -/

/-- The characters of a number, which ends in a digit. `digit` says that the last word starts with one. -/
def isNumeral : Bool → List Char → Bool
  | digit, [] => digit
  | digit, c :: cs =>
    if c.isDigit then isNumeral true cs
    else if c = 'e' then digit && isNumeral true cs
    else (c == '.' || c == '+' || c == '-') && isNumeral false cs

theorem isNumeral_digits (h : ∀ c ∈ cs, c.isDigit = true) (hne : cs ≠ []) (digit : Bool) (rest : List Char) :
    isNumeral digit (cs ++ rest) = isNumeral true rest := by
  induction cs generalizing digit with
  | nil => exact absurd rfl hne
  | cons c cs ih =>
    obtain ⟨hc, hcs⟩ := List.forall_mem_cons.1 h
    rw [List.cons_append, isNumeral, if_pos hc]
    cases cs with
    | nil => rfl
    | cons d cs => exact ih hcs (List.cons_ne_nil d cs) true

theorem isNumeral_more_digits (h : ∀ c ∈ cs, c.isDigit = true) (rest : List Char) :
    isNumeral true (cs ++ rest) = isNumeral true rest := by
  by_cases hne : cs = []
  · rw [hne]
    rfl
  · exact isNumeral_digits h hne true rest

theorem isNumeral_all_digits (h : ∀ c ∈ cs, c.isDigit = true) (hne : cs ≠ []) (digit : Bool) : isNumeral digit cs = true := by
  rw [← List.append_nil cs, isNumeral_digits h hne]
  rfl

theorem isNumeral_point (digit : Bool) (cs : List Char) : isNumeral digit ('.' :: cs) = isNumeral false cs := rfl

theorem toDigits_isDigit (n : Nat) : (∀ c ∈ Nat.toDigits 10 n, c.isDigit = true) ∧ Nat.toDigits 10 n ≠ [] :=
  ⟨fun _ hc => Nat.isDigit_of_mem_toDigits (by decide) (by decide) hc, Nat.toDigits_ne_nil⟩

theorem zeros_isDigit (n : Nat) : ∀ c ∈ Number.zeros n, c.isDigit = true := by
  intro c hc
  rw [List.eq_of_mem_replicate hc]
  rfl

theorem isNumeral_positional (layout : Number.Layout) {digits : List Char} (h : ∀ c ∈ digits, c.isDigit = true)
    (hne : digits ≠ []) (exponent : Int) : isNumeral false (layout.writePositional digits exponent) = true := by
  simp only [Number.Layout.writePositional]
  split
  · rw [List.append_assoc, isNumeral_digits h hne, isNumeral_more_digits (zeros_isDigit _)]
    split <;> rfl
  · next hneg =>
    split
    · next hplaces =>
      have hfront : digits.take (digits.length - (-exponent).toNat) ≠ [] :=
        List.length_pos_iff.1 (by rw [List.length_take]; omega)
      have hback : digits.drop (digits.length - (-exponent).toNat) ≠ [] :=
        List.length_pos_iff.1 (by rw [List.length_drop]; omega)
      rw [isNumeral_digits (fun c hc => h c (List.mem_of_mem_take hc)) hfront, isNumeral_point]
      exact isNumeral_all_digits (fun c hc => h c (List.mem_of_mem_drop hc)) hback false
    · have hall : ∀ c ∈ Number.zeros ((-exponent).toNat - digits.length) ++ digits, c.isDigit = true := by
        intro c hc
        rcases List.mem_append.1 hc with hc | hc
        · exact zeros_isDigit _ c hc
        · exact h c hc
      exact isNumeral_all_digits hall (by simp [hne]) false

theorem isNumeral_scientific (layout : Number.Layout) {digits : List Char} (h : ∀ c ∈ digits, c.isDigit = true)
    (hne : digits ≠ []) (first : Int) : isNumeral false (layout.writeScientific digits first) = true := by
  obtain ⟨hpower, hpowers⟩ := toDigits_isDigit first.natAbs
  have hexponent : isNumeral true ('e' :: (if first < 0 then '-' else '+') :: Nat.toDigits 10 first.natAbs) = true := by
    have hall := isNumeral_all_digits hpower hpowers false
    split <;> exact hall
  obtain ⟨d, rest, rfl⟩ := List.exists_cons_of_ne_nil hne
  cases rest with
  | nil => exact (isNumeral_digits h (List.cons_ne_nil d []) false _).trans hexponent
  | cons d' rest =>
    obtain ⟨hd, hrest⟩ := List.forall_mem_cons.1 h
    have hpoint := isNumeral_digits hrest (List.cons_ne_nil d' rest) false
      ('e' :: (if first < 0 then '-' else '+') :: Nat.toDigits 10 first.natAbs)
    have hall := isNumeral_digits (by simpa using hd : ∀ c ∈ [d], c.isDigit = true) (by simp) false
      ('.' :: (d' :: rest ++ 'e' :: (if first < 0 then '-' else '+') :: Nat.toDigits 10 first.natAbs))
    exact hall.trans (hpoint.trans hexponent)

theorem isNumeral_decimal (layout : Number.Layout) (d : Number.Decimal) : isNumeral false (layout.writeDecimal d) = true := by
  obtain ⟨hdigits, hne⟩ := toDigits_isDigit d.digits
  simp only [Number.Layout.writeDecimal]
  split
  · split
    · exact isNumeral_positional layout hdigits hne _
    · exact isNumeral_scientific layout hdigits hne _
  · exact isNumeral_positional layout hdigits hne _

/-- What a reader has come past in a number: a word that starts with a digit, or a mark. -/
def Sight.Numeric (digit : Bool) (s : Sight) : Prop :=
  if digit then ∃ d name bare whole, s = .word (d :: name) bare whole ∧ d.isDigit = true
  else s = .other ∨ s = .slash ∨ s = .dot

theorem Sight.Numeric.settled {digit : Bool} {s : Sight} (h : s.Numeric digit) : s.settled = .other ∨ s.settled = .slash ∨ s.settled = .dot := by
  cases digit with
  | true =>
    obtain ⟨d, name, bare, whole, rfl, hd⟩ := h
    refine .inl (if_neg ?_)
    rintro ⟨_, heq⟩
    rw [(List.cons.inj heq).1] at hd
    cases hd
  | false => rcases h with rfl | rfl | rfl <;> simp [Sight.settled]

theorem finds_numeric {digit : Bool} {s : Sight} (hs : s.Numeric digit) {c : Char} (hc : c ≠ '/') :
    (⟨.code, [], s⟩ : Reader).finds c = [] := by
  have hmisread : s.settled.isMisread c = false := by
    rcases hs.settled with h | h | h <;> rw [h] <;> simp [Sight.isMisread, hc]
  have hended : (s.ended? c).filter Text.isVariableName = none := by
    cases digit with
    | true =>
      obtain ⟨d, name, bare, whole, rfl, hd⟩ := hs
      have hname : Text.isVariableName (d :: name) = false := by
        refine Bool.eq_false_iff.2 fun h => ?_
        have hstart := (Bool.and_eq_true_iff.1 h).1
        rw [Await.not_isDigit_of_isNameStart (Text.isNameStart_of_isVariableStart hstart)] at hd
        cases hd
      cases bare with
      | false => rfl
      | true =>
        simp only [Sight.ended?]
        split
        · rfl
        · simp [hname]
    | false => rcases hs with rfl | rfl | rfl <;> rfl
  simp [Reader.finds, hmisread, hended]

theorem numeric_word {digit : Bool} {s : Sight} (hs : s.Numeric digit) {c : Char} (hc : Text.isWord c = true)
    (hdigit : c.isDigit = true ∨ digit = true) : (s.next c).Numeric true := by
  simp only [Sight.next, hc, if_true]
  cases digit with
  | true =>
    obtain ⟨d, name, bare, whole, rfl, hd⟩ := hs
    exact ⟨d, name ++ [c], bare, whole, rfl, hd⟩
  | false =>
    have hc := hdigit.resolve_right (by simp)
    rcases hs with rfl | rfl | rfl <;> exact ⟨c, [], _, _, rfl, hc⟩

theorem mild_numeral {digit : Bool} (h : isNumeral digit cs = true) : Mild (Sight.Numeric digit) (Sight.Numeric true) cs := by
  induction cs generalizing digit with
  | nil =>
    obtain rfl : digit = true := h
    exact .nil fun _ hs => hs
  | cons c cs ih =>
    have hstep : ∀ {digit' : Bool}, isNumeral digit' cs = true → c ∉ limits → c ≠ '/' →
        (∀ s : Sight, s.Numeric digit → (s.next c).Numeric digit') → Mild (Sight.Numeric digit) (Sight.Numeric true) (c :: cs) := by
      intro digit' hrest hlimit hslash hnext
      refine .cons (.single hlimit hnext fun s hs x hx => ?_) (ih hrest)
      rw [finds_numeric hs hslash] at hx
      cases hx
    rw [isNumeral] at h
    split at h
    · next hc =>
      have hword := Text.isWord_of_isDigit hc
      refine hstep h (fun hmem => ?_) (fun heq => ?_) fun s hs => numeric_word hs hword (.inl hc)
      · rw [(mark_class hmem).1] at hword
        cases hword
      · rw [heq] at hc
        cases hc
    · split at h
      · next hc =>
        subst hc
        obtain ⟨hdigit, h⟩ := Bool.and_eq_true_iff.1 h
        exact hstep h (by decide) (by decide) fun s hs => numeric_word hs (by decide) (.inr hdigit)
      · obtain ⟨hmark, h⟩ := Bool.and_eq_true_iff.1 h
        have hmarks : c = '.' ∨ c = '+' ∨ c = '-' := by simpa [or_assoc] using hmark
        refine hstep h ?_ ?_ fun s hs => ?_
        · rcases hmarks with rfl | rfl | rfl <;> decide
        · rcases hmarks with rfl | rfl | rfl <;> decide
        · rcases hmarks with rfl | hmarks
          · rw [s.next_mark (by decide) (by decide) (by decide)]
            rcases hs.settled with heq | heq | heq <;> rw [heq] <;> exact .inr (.inr rfl)
          · rw [s.next_plain (by rcases hmarks with rfl | rfl <;> decide)]
            exact .inl rfl

theorem numeric_spent {s : Sight} (hs : s.Numeric true) : s.Spent := by
  obtain ⟨d, name, bare, whole, rfl, hd⟩ := hs
  refine .inr ⟨d :: name, bare, whole, rfl, ?_, fun hname => ?_⟩
  · intro heq
    rw [(List.cons.inj heq).1] at hd
    cases hd
  · have hstart := (Bool.and_eq_true_iff.1 hname).1
    rw [Await.not_isDigit_of_isNameStart (Text.isNameStart_of_isVariableStart hstart)] at hd
    cases hd

theorem Mild.weaken {P' Q' : Sight → Prop} (h : Mild P Q cs) (hP : ∀ s, P' s → P s) (hQ : ∀ s, Q s → Q' s) : Mild P' Q' cs := by
  intro braces s hs
  obtain ⟨s', hs', hread⟩ := h braces s (hP s hs)
  exact ⟨s', hQ s' hs', hread⟩

theorem mild_number (h : isNumeral false cs = true) : Mild Sight.Calm Sight.Spent cs :=
  (mild_numeral h).weaken (fun _ hs => hs.imp_right .inl) fun _ => numeric_spent

theorem mild_writeShort (x : Float) : Mild Sight.Calm Sight.Spent (Number.dataFile.writeShort x).toList := by
  have hminus : ∀ {negative : Prop} [Decidable negative] {ds : List Char}, isNumeral false ds = true →
      isNumeral false ((if negative then ['-'] else []) ++ ds) = true := by
    intro negative _ ds hds
    split <;> exact hds
  have hnull : Mild Sight.Calm Sight.Spent "null".toList := mild_constant (by decide)
  unfold Number.Layout.writeShort
  split
  · next n _ =>
    obtain ⟨hdigits, hne⟩ := toDigits_isDigit n
    rw [Number.writeWhole, String.toList_ofList]
    exact mild_number (hminus (isNumeral_all_digits hdigits hne false))
  · unfold Number.Layout.write
    split
    · exact hnull
    · split <;> exact hnull
    · next negative m e _ =>
      rw [String.toList_ofList]
      exact mild_number (hminus (isNumeral_decimal Number.dataFile _))

/-! Values. -/

theorem mild_mark {c : Char} (hc : c = ',' ∨ c = ']') : Mild Sight.Spent (· = .other) [c] := by
  refine .single (by rcases hc with rfl | rfl <;> decide) (fun s _ => ?_) fun s hs x hx => finds_spent hs c x hx
  exact s.next_plain (by rcases hc with rfl | rfl <;> decide)

theorem mild_open {c : Char} (hc : c = '[' ∨ c = '(') : Mild Sight.Calm (· = .other) [c] := by
  have hlimit : c ∉ limits := by rcases hc with rfl | rfl <;> decide
  have hslash : c ≠ '/' := by rcases hc with rfl | rfl <;> decide
  refine .single hlimit (fun s hs => ?_) fun s hs x hx => finds_calm hs hslash x hx
  rcases hc with rfl | rfl
  all_goals
    rw [s.next_mark (by decide) (by decide) (by decide), hs.settled]
    rcases hs with rfl | rfl <;> rfl

theorem mild_intercalate {items : List (List Char)} (h : ∀ item ∈ items, Mild Sight.Calm Sight.Spent item) :
    Mild (· = .other) Sight.Spent ([','].intercalate items) := by
  induction items with
  | nil => exact .nil fun _ => .inl
  | cons item items ih =>
    obtain ⟨hitem, hitems⟩ := List.forall_mem_cons.1 h
    have hitem : Mild (· = .other) Sight.Spent item := hitem.weaken (fun _ => .inl) fun _ hs => hs
    cases items with
    | nil => exact List.intercalate_singleton ▸ hitem
    | cons next items =>
      rw [List.intercalate_cons_cons, List.append_assoc]
      exact hitem.append (.append (mild_mark (.inl rfl)) (ih hitems))

theorem mild_enclose {items : List (List Char)} (h : ∀ item ∈ items, Mild Sight.Calm Sight.Spent item) :
    Mild Sight.Calm Sight.Spent (Json.enclose '[' ']' items) := by
  have hclose : Mild Sight.Spent Sight.Spent [']'] := (mild_mark (.inr rfl)).weaken (fun _ hs => hs) fun _ => .inl
  exact (Mild.cons (mild_open (.inl rfl)) (mild_intercalate h)).append hclose

theorem mild_minusInfinity : Mild Sight.Calm Sight.Spent "(-Infinity)".toList := by
  have hminus : Mild (· = .other) Sight.Calm ['-'] := by
    refine .single (by decide) (fun s _ => .inl (s.next_plain (by decide))) fun s hs x hx => ?_
    exact finds_calm (.inl hs) (by decide) x hx
  have hclose : Mild Sight.Spent Sight.Spent [')'] := by
    refine .single (by decide) (fun s hs => .inl ?_) fun s hs x hx => finds_spent hs ')' x hx
    rw [s.next_mark (by decide) (by decide) (by decide), hs.settled]
    rfl
  have hword : Mild Sight.Calm Sight.Spent "Infinity".toList := mild_constant (by decide)
  exact .cons (mild_open (.inr rfl)) (.cons hminus (hword.append hclose))

mutual

/-- Nothing but constants is found in the source text of a value. -/
theorem mild_sourceChars : ∀ v : Value, Mild Sight.Calm Sight.Spent v.sourceChars
  | .null => mild_constant (w := "null") (by decide)
  | .bool b => by
    cases b
    · exact mild_constant (w := "false") (by decide)
    · exact mild_constant (w := "true") (by decide)
  | .string s => mild_quote s.toList
  | .number n => by
    rw [Value.sourceChars]
    split
    · exact mild_constant (by decide)
    · split
      · split
        · exact mild_minusInfinity
        · exact mild_constant (by decide)
      · rw [Value.toJson]
        split
        · exact mild_writeShort n
        · exact mild_constant (w := "null") (by decide)
  | .array items => mild_enclose (mild_sourceItems items)

theorem mild_sourceItems : ∀ vs : List Value, ∀ item ∈ Value.sourceItems vs, Mild Sight.Calm Sight.Spent item
  | [] => List.forall_mem_nil _
  | v :: vs => List.forall_mem_cons.2 ⟨mild_sourceChars v, mild_sourceItems vs⟩

end

end LiveSheet.References
