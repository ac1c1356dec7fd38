import LiveSheet.Proofs.Await.Literals
import LiveSheet.Reference

/-! Reading a text from left to right for the names it mentions. A reader knows where it stands, in code or in a
literal, and what it came past last; it finds a name where the word ends, and a misreading where what the text
shows is not what it is read as. -/

namespace LiveSheet.References

inductive Place where
  | code
  | quoted (quote : Char) (escaped : Bool)
  | template (escaped dollar : Bool)
  deriving DecidableEq

/-- What stands before a character of code. -/
inductive Sight where
  | other
  | slash
  | dot
  /-- A word up to here. `bare` says that it is no member, and `whole` that no other part of a name is before it. -/
  | word (name : List Char) (bare whole : Bool)
  | self
  | hidden
  | selfDot
  | bracket
  /-- `this`, a bracket and parentheses. -/
  | wrapped
  /-- `this`, a bracket and a key in quotes, up to here. -/
  | key (name : List Char)
  /-- The key with its quotes. -/
  | keyed (name : List Char)
  deriving DecidableEq

/-- What a reader finds in a text. -/
inductive Finding where
  | name (cs : List Char)
  /-- A comment, a dollar before an escape in a template, or a way to reach into `this` that hides it or its key. -/
  | misread
  deriving DecidableEq

namespace Sight

def settled : Sight → Sight
  | word name _ whole => if whole ∧ name = "this".toList then self else other
  | s => s

def mark (s : Sight) (c : Char) : Sight :=
  match c with
  | '.' => if s = self then selfDot else dot
  | '[' => if s = self then bracket else other
  | '(' => if s = bracket ∨ s = wrapped then wrapped else other
  | ')' => if s = self ∨ s = hidden then hidden else other
  | '/' => slash
  | c => if isQuote c ∧ s = bracket then key [] else other

def next (s : Sight) (c : Char) : Sight :=
  if Text.isWord c then
    match s with
    | word name bare whole => word (name ++ [c]) bare whole
    | dot => word [c] false true
    | _ => word [c] true true
  else if Text.isNamePart c then word [] true false
  else if Text.isBlank c then
    match s.settled with
    | slash => other
    | s => s
  else s.settled.mark c

def nextQuoted (s : Sight) (quote c : Char) : Sight :=
  match s with
  | key name => if c = quote then keyed name else if Text.isVariablePart c then key (name ++ [c]) else other
  | _ => other

def isMisread (s : Sight) (c : Char) : Bool :=
  match s with
  | slash => c == '/'
  | hidden => c == '.' || c == '['
  | wrapped => isQuote c
  | key _ => c == '\\'
  | _ => false

/-- The name that ends before `c`, or with it. -/
def ended? (s : Sight) (c : Char) : Option (List Char) :=
  match s with
  | word name true _ => if Text.isWord c then none else some name
  | keyed name => if c = ']' then some name else none
  | _ => none

end Sight

structure Reader where
  place : Place
  /-- The braces that are open in each open interpolation, the innermost first. -/
  braces : List Nat
  sight : Sight

namespace Reader

def start : Reader := ⟨.code, [], .other⟩

def next (r : Reader) (c : Char) : Reader :=
  match r.place with
  | .quoted quote true => { r with place := .quoted quote false, sight := .other }
  | .quoted quote false =>
    let place := if c = '\\' then .quoted quote true else if c = quote then .code else .quoted quote false
    { r with place, sight := r.sight.nextQuoted quote c }
  | .template true _ => { r with place := .template false false, sight := .other }
  | .template false dollar =>
    if dollar ∧ c = '\x7b' then ⟨.code, 0 :: r.braces, .other⟩
    else
      let place := if c = '\\' then .template true false else if c = '\x60' then .code
        else .template false (c == '$')
      { r with place, sight := .other }
  | .code =>
    let sight := r.sight.next c
    if isQuote c then { r with place := .quoted c false, sight }
    else if c = '\x60' then { r with place := .template false false, sight }
    else
      match r.braces with
      | [] => { r with sight }
      | depth :: outer =>
        if c = '\x7b' then ⟨.code, (depth + 1) :: outer, sight⟩
        else if c = '\x7d' then
          if depth = 0 then ⟨.template false false, outer, sight⟩ else ⟨.code, (depth - 1) :: outer, sight⟩
        else { r with sight }

def finds (r : Reader) (c : Char) : List Finding :=
  match r.place with
  | .code => (if r.sight.settled.isMisread c then [.misread] else []) ++
      ((r.sight.ended? c).filter Text.isVariableName).toList.map .name
  | .quoted _ _ => if r.sight.isMisread c then [.misread] else []
  | .template _ dollar => if dollar ∧ c = '\\' then [.misread] else []

def after (r : Reader) (cs : List Char) : Reader := cs.foldl next r

def findings (r : Reader) : List Char → List Finding
  | [] => []
  | c :: cs => r.finds c ++ (r.next c).findings cs

variable (r : Reader) (c : Char) (xs ys : List Char)

@[simp] theorem after_nil : r.after [] = r := rfl

@[simp] theorem after_cons : r.after (c :: xs) = (r.next c).after xs := rfl

@[simp] theorem after_append : r.after (xs ++ ys) = (r.after xs).after ys := List.foldl_append

@[simp] theorem findings_nil : r.findings [] = [] := rfl

@[simp] theorem findings_cons : r.findings (c :: xs) = r.finds c ++ (r.next c).findings xs := rfl

theorem findings_append : r.findings (xs ++ ys) = r.findings xs ++ (r.after xs).findings ys := by
  induction xs generalizing r with
  | nil => rfl
  | cons c xs ih => rw [List.cons_append, findings_cons, findings_cons, ih, List.append_assoc, after_cons]

end Reader

/-- The characters that lead out of code, or count in it. -/
def limits : List Char := ['"', '\'', '\x60', '\x7b', '\x7d']

namespace Sight

def after (s : Sight) (cs : List Char) : Sight := cs.foldl next s

@[simp] theorem after_nil (s : Sight) : s.after [] = s := rfl

@[simp] theorem after_cons (s : Sight) (c : Char) (cs : List Char) : s.after (c :: cs) = (s.next c).after cs := rfl

theorem after_append (s : Sight) (xs ys : List Char) : s.after (xs ++ ys) = (s.after xs).after ys := List.foldl_append

theorem next_mark (s : Sight) {c : Char} (hword : Text.isWord c = false) (hname : Text.isNamePart c = false)
    (hblank : Text.isBlank c = false) : s.next c = s.settled.mark c := by
  simp [next, hword, hname, hblank]

theorem next_plain (s : Sight) {c : Char} (hc : c ∈ "=!<>&|+-*%,;?:]\x60\x7b\x7d".toList) : s.next c = other := by
  have hmark : ∀ s : Sight, s.mark c = other := by
    intro s
    simp at hc
    rcases hc with rfl | rfl | rfl | rfl | rfl | rfl | rfl | rfl | rfl | rfl | rfl | rfl | rfl | rfl | rfl | rfl | rfl | rfl
    all_goals simp [mark, isQuote]
  have hclass : ∀ d ∈ "=!<>&|+-*%,;?:]\x60\x7b\x7d".toList,
      Text.isWord d = false ∧ Text.isNamePart d = false ∧ Text.isBlank d = false := by decide
  obtain ⟨hword, hname, hblank⟩ := hclass c hc
  rw [next_mark s hword hname hblank, hmark]

theorem next_blank (s : Sight) {c : Char} (hc : Text.isBlank c = true) :
    s.next c = if s.settled = slash then other else s.settled := by
  simp only [next, Text.not_isWord_of_isBlank hc, Text.not_isNamePart_of_isBlank hc, hc, Bool.false_eq_true, if_false,
    if_true]
  split <;> simp_all

theorem next_quote (s : Sight) {c : Char} (hc : isQuote c = true) :
    s.next c = if s.settled = bracket then key [] else other := by
  have hquotes : c = '"' ∨ c = '\'' := by simpa [isQuote] using hc
  have hclass : ∀ d, d = '"' ∨ d = '\'' → Text.isWord d = false ∧ Text.isNamePart d = false ∧ Text.isBlank d = false := by
    rintro d (rfl | rfl) <;> decide
  obtain ⟨hword, hname, hblank⟩ := hclass c hquotes
  rw [s.next_mark hword hname hblank]
  rcases hquotes with rfl | rfl <;> simp [mark, isQuote]

theorem settled_settled (s : Sight) : s.settled.settled = s.settled := by
  cases s with
  | word name bare whole =>
    have hword : (word name bare whole).settled = self ∨ (word name bare whole).settled = other := by
      simp only [settled]
      split
      · exact .inl rfl
      · exact .inr rfl
    rcases hword with h | h <;> rw [h] <;> rfl
  | _ => rfl

theorem settled_ne_word (s : Sight) (name : List Char) (bare whole : Bool) : s.settled ≠ word name bare whole := by
  cases s with
  | word name bare whole =>
    simp only [settled]
    split <;> simp
  | _ => simp [settled]

theorem next_namePart (s : Sight) {c : Char} (hc : Text.isNamePart c = true) : ∃ name bare whole, s.next c = word name bare whole := by
  unfold next
  split
  · split <;> exact ⟨_, _, _, rfl⟩
  · exact ⟨_, _, _, rfl⟩

theorem after_namePart {s : Sight} {cs : List Char} (hcs : ∀ c ∈ cs, Text.isNamePart c = true) (hne : cs ≠ []) :
    ∃ name bare whole, s.after cs = word name bare whole := by
  induction cs generalizing s with
  | nil => exact absurd rfl hne
  | cons c cs ih =>
    cases cs with
    | nil => exact s.next_namePart (hcs c List.mem_cons_self)
    | cons d cs => exact ih (fun e he => hcs e (List.mem_cons_of_mem c he)) (List.cons_ne_nil d cs)

theorem after_word (name : List Char) (bare whole : Bool) {cs : List Char} (hcs : ∀ c ∈ cs, Text.isWord c = true) :
    (word name bare whole).after cs = word (name ++ cs) bare whole := by
  induction cs generalizing name with
  | nil => simp
  | cons c cs ih =>
    have hnext : (word name bare whole).next c = word (name ++ [c]) bare whole := by
      simp [next, hcs c List.mem_cons_self]
    rw [after_cons, hnext, ih _ fun d hd => hcs d (List.mem_cons_of_mem c hd), List.append_assoc]
    rfl

theorem after_whole {s : Sight} {cs : List Char} (hcs : ∀ c ∈ cs, Text.isWord c = true) (hne : cs ≠ [])
    (hs : ∀ name bare whole, s ≠ word name bare whole) : s.after cs = word cs (decide (s ≠ dot)) true := by
  cases cs with
  | nil => exact absurd rfl hne
  | cons c cs =>
    have hnext : s.next c = word [c] (decide (s ≠ dot)) true := by
      simp only [next, hcs c List.mem_cons_self, if_true]
      cases s with
      | word name bare whole => exact absurd rfl (hs name bare whole)
      | _ => rfl
    rw [after_cons, hnext, after_word _ _ _ fun d hd => hcs d (List.mem_cons_of_mem c hd)]
    rfl

end Sight

namespace Reader

variable (braces : List Nat) (s : Sight)

theorem next_code {c : Char} (hc : c ∉ limits) : (⟨.code, braces, s⟩ : Reader).next c = ⟨.code, braces, s.next c⟩ := by
  simp only [limits, List.mem_cons, List.not_mem_nil, or_false, not_or] at hc
  obtain ⟨h₁, h₂, h₃, h₄, h₅⟩ := hc
  cases braces <;> simp [next, isQuote, h₁, h₂, h₃, h₄, h₅]

theorem after_code {cs : List Char} (hcs : ∀ c ∈ cs, c ∉ limits) :
    (⟨.code, braces, s⟩ : Reader).after cs = ⟨.code, braces, s.after cs⟩ := by
  induction cs generalizing s with
  | nil => rfl
  | cons c cs ih =>
    rw [after_cons, next_code braces s (hcs c List.mem_cons_self), ih _ fun d hd => hcs d (List.mem_cons_of_mem c hd)]
    rfl

end Reader

theorem not_mem_limits_of_isBlank {c : Char} (h : Text.isBlank c = true) : c ∉ limits := by
  have hlimits : ∀ d ∈ limits, Text.isBlank d = false := by decide
  intro hmem
  rw [hlimits c hmem] at h
  cases h

theorem not_mem_limits_of_isNamePart {c : Char} (h : Text.isNamePart c = true) : c ∉ limits := by
  have hlimits : ∀ d ∈ limits, Text.isNamePart d = false := by decide
  intro hmem
  rw [hlimits c hmem] at h
  cases h

/-- Whether a text misleads its reader. A line end stands behind it. -/
def Plain (cs : List Char) : Prop := .misread ∉ Reader.start.findings (cs ++ ['\n'])

/-- Whether a reader comes past a name. -/
def Mentions (cs : List Char) (n : String) : Prop := .name n.toList ∈ Reader.start.findings (cs ++ ['\n'])

end LiveSheet.References
