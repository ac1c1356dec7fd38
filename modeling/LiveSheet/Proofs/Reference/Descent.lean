import LiveSheet.Proofs.Expr.Overt
import LiveSheet.Proofs.Reference.Mention

/-! The names that a program reads are found in its tokens. What counts is only what the tokens before a name
are, and the parser takes no name behind them for anything else. -/

namespace LiveSheet

def Expr.isSelf : Expr → Bool
  | .self => true
  | _ => false

def Expr.keyOf (object key : Expr) : List String :=
  match object, key with
  | .self, .string s => [s]
  | _, _ => []

mutual

/-- The names that an expression can read: bare ones, members of `this` and its literal keys. -/
def Expr.reads : Expr → List String
  | .number _ => []
  | .string _ => []
  | .boolean _ => []
  | .null => []
  | .self => []
  | .array items => Expr.readsAll items
  | .template parts => Expr.readsParts parts
  | .identifier name => [name]
  | .member object name => (if object.isSelf then [name] else []) ++ object.reads
  | .index object key => object.keyOf key ++ (object.reads ++ key.reads)
  | .call callee args => callee.reads ++ Expr.readsAll args
  | .unary _ operand => operand.reads
  | .binary _ left right => left.reads ++ right.reads
  | .ternary condition ifTrue ifFalse => condition.reads ++ (ifTrue.reads ++ ifFalse.reads)
  | .await operand => operand.reads

def Expr.readsAll : List Expr → List String
  | [] => []
  | e :: es => e.reads ++ Expr.readsAll es

def Expr.readsParts : List (Part Expr) → List String
  | [] => []
  | p :: ps => Expr.readsPart p ++ Expr.readsParts ps

def Expr.readsPart : Part Expr → List String
  | .text _ => []
  | .code e => e.reads

end

def Statement.reads : Statement → List String
  | .bind _ value => value.reads
  | .expr e => e.reads

def Program.reads (p : Program) : List String := p.flatMap Statement.reads

namespace References

/-- What the tokens before a token are. -/
inductive Cue where
  | other
  | number
  | dot
  | self
  | hidden
  | selfDot
  | bracket
  | wrapped
  | keyed (name : String)
  deriving DecidableEq

namespace Cue

def next (cue : Cue) : Token → Cue
  | .number _ => number
  | .dot => if cue = self then selfDot else dot
  | .thisWord => if cue = number then other else self
  | .leftBracket => if cue = self then bracket else other
  | .leftParen => if cue = bracket ∨ cue = wrapped then wrapped else other
  | .rightParen => if cue = self ∨ cue = hidden then hidden else other
  | .string s => if cue = bracket then keyed s else other
  | .newline => if cue = dot then dot else other
  | _ => other

/-- A name behind the cue stands on its own. -/
def Free (cue : Cue) : Prop := cue ≠ dot ∧ cue ≠ number

/-- The cue behind an expression. -/
def Behind (cue : Cue) (e : Expr) : Prop := cue ≠ dot ∧ (e.isSelf = true → cue = self ∨ cue = hidden)

end Cue

/-- What is found in tokens behind a cue, also in the code of templates. -/
inductive Finds : Cue → Parser.Tokens → Finding → Prop where
  | name {cue n p ts} (h : cue.Free) : Finds cue (⟨.identifier n, p⟩ :: ts) (.name n.toList)
  | key {n p ts} : Finds (.keyed n) (⟨.rightBracket, p⟩ :: ts) (.name n.toList)
  | hidden {t p ts} (h : t = .dot ∨ t = .leftBracket) : Finds .hidden (⟨t, p⟩ :: ts) .misread
  | wrapped {s p ts} : Finds .wrapped (⟨.string s, p⟩ :: ts) .misread
  | code {cue raw p ts body us f} (hbody : .code (.ok body) ∈ Template.pieces 0 1 0 raw.toList)
    (htokens : Token.tokenize body = .ok us) (h : Finds .other us f) : Finds cue (⟨.template raw, p⟩ :: ts) f
  | later {cue t p ts f} (h : Finds (cue.next t) ts f) : Finds cue (⟨t, p⟩ :: ts) f

/-- Tokens are passed one by one, templates only where they can be read. -/
inductive Path (template : String → Except SheetError (List (Part Expr))) :
    Cue → Parser.Tokens → Cue → Parser.Tokens → Prop where
  | refl (cue ts) : Path template cue ts cue ts
  | token {cue t p ts cue' r} (ht : ∀ raw, t = .template raw → ∃ parts, template raw = .ok parts)
    (h : Path template (cue.next t) ts cue' r) : Path template cue (⟨t, p⟩ :: ts) cue' r

namespace Path

variable {template : String → Except SheetError (List (Part Expr))} {cue cue' cue'' : Cue} {ts r r' : Parser.Tokens}

theorem trans (h : Path template cue ts cue' r) (h' : Path template cue' r cue'' r') : Path template cue ts cue'' r' := by
  induction h with
  | refl => exact h'
  | token ht _ ih => exact .token ht (ih h')

theorem single {t : Token} {p : Position} (ht : ∀ raw, t ≠ .template raw) :
    Path template cue (⟨t, p⟩ :: ts) (cue.next t) ts :=
  .token (fun raw heq => absurd heq (ht raw)) (.refl _ _)

theorem finds (h : Path template cue ts cue' r) {f : Finding} (hf : Finds cue' r f) : Finds cue ts f := by
  induction h with
  | refl => exact hf
  | token _ _ ih => exact .later (ih hf)

theorem skipNewlines (template : String → Except SheetError (List (Part Expr))) (cue : Cue) (ts : Parser.Tokens) :
    ∃ cue', Path template cue ts cue' (Parser.skipNewlines ts) ∧ (cue = .other → cue' = .other) := by
  induction ts generalizing cue with
  | nil => exact ⟨cue, .refl _ _, id⟩
  | cons t ts ih =>
    obtain ⟨t, p⟩ := t
    by_cases ht : t = .newline
    · subst ht
      obtain ⟨cue', hpath, hother⟩ := ih (cue.next .newline)
      refine ⟨cue', .token (fun _ heq => by cases heq) hpath, ?_⟩
      rintro rfl
      exact hother rfl
    · have hskip : Parser.skipNewlines (⟨t, p⟩ :: ts) = ⟨t, p⟩ :: ts := by
        cases t with
        | newline => exact absurd rfl ht
        | _ => rfl
      rw [hskip]
      exact ⟨cue, .refl _ _, id⟩

end Path

section

variable (template : String → Except SheetError (List (Part Expr)))

/-- What is read as an expression: the names in it are found. -/
def Found (ts : Parser.Tokens) (e : Expr) (r : Parser.Tokens) : Prop := ∀ cue : Cue, cue.Free →
  ∃ cue', Path template cue ts cue' r ∧ cue'.Behind e ∧
    (¬Finds cue ts .misread → ∀ n ∈ e.reads, Finds cue ts (.name n.toList))

/-- The same for an expression that goes on with what is read already. -/
def FoundBehind (x : Expr) (ts : Parser.Tokens) (e : Expr) (r : Parser.Tokens) : Prop :=
  ∀ cue : Cue, cue.Behind x →
    ∃ cue', Path template cue ts cue' r ∧ cue'.Behind e ∧
      (¬Finds cue ts .misread → ∀ n ∈ e.reads, n ∈ x.reads ∨ Finds cue ts (.name n.toList))

def FoundAll (ts : Parser.Tokens) (es : List Expr) (r : Parser.Tokens) : Prop := ∀ cue : Cue, cue.Free →
  ∃ cue', Path template cue ts cue' r ∧ cue' ≠ .dot ∧
    (¬Finds cue ts .misread → ∀ n ∈ Expr.readsAll es, Finds cue ts (.name n.toList))

end

variable {template : String → Except SheetError (List (Part Expr))} {ts ts₁ r : Parser.Tokens} {x e : Expr}

theorem Found.behind (hx : Found template ts x ts₁) (he : FoundBehind template x ts₁ e r) : Found template ts e r := by
  intro cue hcue
  obtain ⟨cue₁, hpath, hself, hreads⟩ := hx cue hcue
  obtain ⟨cue₂, hpath', hself', hreads'⟩ := he cue₁ hself
  refine ⟨cue₂, hpath.trans hpath', hself', fun hsound n hn => ?_⟩
  rcases hreads' (fun hmis => hsound (hpath.finds hmis)) n hn with hn | hn
  · exact hreads hsound n hn
  · exact hpath.finds hn

theorem FoundBehind.refl (x : Expr) (ts : Parser.Tokens) : FoundBehind template x ts x ts :=
  fun cue hself => ⟨cue, .refl _ _, hself, fun _ _ hn => .inl hn⟩

theorem Found.skip (h : Found template ts e r) {cue cue' : Cue} (hcue : cue'.Free) {us : Parser.Tokens}
    (hpath : Path template cue us cue' ts) : ∃ cue'', Path template cue us cue'' r ∧ cue''.Behind e ∧
      (¬Finds cue us .misread → ∀ n ∈ e.reads, Finds cue us (.name n.toList)) := by
  obtain ⟨cue'', hpath', hself, hreads⟩ := h cue' hcue
  exact ⟨cue'', hpath.trans hpath', hself, fun hsound n hn =>
    hpath.finds (hreads (fun hmis => hsound (hpath.finds hmis)) n hn)⟩

theorem Cue.behind {cue : Cue} (hcue : cue ≠ .dot) (he : e.isSelf = false) : cue.Behind e :=
  ⟨hcue, fun hself => by rw [he] at hself; cases hself⟩

theorem Cue.next_ne_dot {t : Token} (cue : Cue) (hdot : t ≠ .dot) (hline : t ≠ .newline) : cue.next t ≠ .dot := by
  cases t with
  | dot => exact absurd rfl hdot
  | newline => exact absurd rfl hline
  | thisWord => rw [next]; split <;> decide
  | leftBracket => rw [next]; split <;> decide
  | leftParen => rw [next]; split <;> decide
  | rightParen => rw [next]; split <;> decide
  | string s => rw [next]; split <;> simp
  | _ => simp [next]

theorem Cue.free_other : Cue.other.Free := ⟨by decide, by decide⟩

theorem Cue.next_of_operator {level : Nat} {t : Token} {op : BinaryOp} (h : Parser.operator? level t = some op)
    (cue : Cue) : cue.next t = .other ∧ ∀ raw, t ≠ .template raw := by
  unfold Parser.operator? at h
  split at h
  all_goals cases h
  all_goals exact ⟨rfl, by rintro raw ⟨⟩⟩

theorem Cue.next_of_prefixed {t : Token} {f : Expr → Expr} (h : Parser.prefixed? t = some f) (cue : Cue) :
    cue.next t = .other ∧ (∀ raw, t ≠ .template raw) ∧ ∀ e, (f e).isSelf = false ∧ (f e).reads = e.reads := by
  unfold Parser.prefixed? at h
  split at h
  all_goals cases h
  all_goals exact ⟨rfl, by rintro raw ⟨⟩, fun e => ⟨rfl, by rw [Expr.reads]⟩⟩

theorem Cue.free_paren (cue : Cue) : (cue.next .leftParen).Free := by
  rw [Cue.next]
  split <;> exact ⟨by decide, by decide⟩

theorem Cue.free_bracket (cue : Cue) : (cue.next .leftBracket).Free := by
  rw [Cue.next]
  split <;> exact ⟨by decide, by decide⟩

theorem suffixes_string {text : String} (h : Parser.suffixes template n x ts = .ok (.string text, r)) :
    x = .string text ∧ r = ts := by
  cases n with
  | zero => exact absurd h (Parser.fault_ne_ok _ _ _)
  | succ n =>
    rcases Parser.suffixes_eq_ok.1 h with ⟨_, he, hr⟩ | ⟨_, _, _, _, _, _, hs⟩ | ⟨_, _, _, _, _, hs⟩ | ⟨_, _, _, _, _, _, _, hs⟩
    · exact ⟨he.symm, hr⟩
    all_goals cases Parser.suffixes_beneath hs

theorem string_of_ternary {text : String} (h : Parser.ternary template n ts = .ok (.string text, r)) :
    ((∃ p, ts = ⟨.string text, p⟩ :: r) ∨ Finds .bracket ts .misread) ∧ Finds .wrapped ts .misread := by
  induction n using Nat.strongRecOn generalizing ts r with
  | ind n ih =>
    obtain ⟨m, hm, hunary⟩ := Parser.unary_of_ternary rfl h
    obtain ⟨k, hk, x, ts₁, hx, hs⟩ := Parser.primary_of_unary rfl hunary
    obtain ⟨rfl, rfl⟩ := suffixes_string hs
    cases k with
    | zero => exact absurd hx (Parser.fault_ne_ok _ _ _)
    | succ k =>
      rcases Parser.primary_eq_ok.1 hx with ⟨t, p, rfl, ht⟩ | ⟨_, _, _, _, _, heq⟩ | ⟨p, rest, q, rfl, hinner⟩ |
        ⟨_, _, _, _, _, heq⟩
      · unfold Parser.atom? at ht
        split at ht
        all_goals cases ht
        exact ⟨.inl ⟨p, rfl⟩, .wrapped⟩
      · cases heq
      · obtain ⟨_, hwrapped⟩ := ih k (by omega) hinner
        exact ⟨.inr (.later hwrapped), .later hwrapped⟩
      · cases heq

theorem member_found {name : String} {p q : Position} {rest : Parser.Tokens} {cue : Cue}
    (hself : cue.Behind x)
    (hsound : ¬Finds cue (⟨.dot, p⟩ :: ⟨.identifier name, q⟩ :: rest) .misread) (hx : x.isSelf = true) :
    Finds cue (⟨.dot, p⟩ :: ⟨.identifier name, q⟩ :: rest) (.name name.toList) := by
  rcases hself.2 hx with rfl | rfl
  · exact .later (.name ⟨by decide, by decide⟩)
  · exact absurd (.hidden (.inl rfl)) hsound

theorem key_found {index : Expr} {p q : Position} {rest : Parser.Tokens} {cue : Cue}
    (hself : cue.Behind x) (hsound : ¬Finds cue (⟨.leftBracket, p⟩ :: rest) .misread)
    (hindex : Parser.ternary template n rest = .ok (index, ⟨.rightBracket, q⟩ :: ts₁)) :
    ∀ name ∈ x.keyOf index, Finds cue (⟨.leftBracket, p⟩ :: rest) (.name name.toList) := by
  intro name hname
  unfold Expr.keyOf at hname
  split at hname
  · obtain rfl := List.mem_singleton.1 hname
    rcases hself.2 rfl with rfl | rfl
    · rcases (string_of_ternary hindex).1 with ⟨_, rfl⟩ | hmis
      · exact .later (.later .key)
      · exact absurd (.later hmis) hsound
    · exact absurd (.hidden (.inr rfl)) hsound
  · cases hname

/-- The names in a template are found in its code. -/
def TemplateFound (template : String → Except SheetError (List (Part Expr))) : Prop := ∀ raw parts,
  template raw = .ok parts → ∀ cue p ts, ¬Finds cue (⟨.template raw, p⟩ :: ts) .misread → ∀ n ∈ Expr.readsParts parts,
    Finds cue (⟨.template raw, p⟩ :: ts) (.name n.toList)

/-- What the functions of the descent find with a bound on their depth. -/
structure FoundAt (template : String → Except SheetError (List (Part Expr))) (n : Nat) : Prop where
  ternary : ∀ {ts e r}, Parser.ternary template n ts = .ok (e, r) → Found template ts e r
  binary : ∀ {level ts e r}, Parser.binary template n level ts = .ok (e, r) → Found template ts e r
  binaryRest : ∀ {level x ts e r}, Parser.binaryRest template n level x ts = .ok (e, r) → FoundBehind template x ts e r
  unary : ∀ {ts e r}, Parser.unary template n ts = .ok (e, r) → Found template ts e r
  suffixes : ∀ {x ts e r}, Parser.suffixes template n x ts = .ok (e, r) → FoundBehind template x ts e r
  arguments : ∀ {close unclosed ts es r}, (close = .rightParen ∨ close = .rightBracket) →
    Parser.arguments template n close unclosed ts = .ok (es, r) → FoundAll template ts es r
  primary : ∀ {ts e r}, Parser.primary template n ts = .ok (e, r) → Found template ts e r

namespace FoundAt

variable {n : Nat}

theorem ternary_succ (ih : FoundAt template n) (h : Parser.ternary template (n + 1) ts = .ok (e, r)) :
    Found template ts e r := by
  obtain ⟨c, ts₁, hc, ⟨_, rfl, rfl⟩ | ⟨p, ts₂, a, ts₃, q, ts₄, b, rfl, ha, hcolon, hb, rfl⟩⟩ := Parser.ternary_eq_ok.1 h
  · exact ih.binary hc
  · intro cue hcue
    obtain ⟨cue₁, hpath₁, _, hreads₁⟩ := ih.binary hc cue hcue
    obtain ⟨cue₂, hpath₂, hother₂⟩ := Path.skipNewlines template .other ts₂
    obtain rfl := hother₂ rfl
    have hpath₂ := hpath₁.trans (.token (t := .question) (p := p) (fun _ heq => by cases heq) hpath₂)
    obtain ⟨cue₃, hpath₃, _, hreads₃⟩ := (ih.ternary ha).skip Cue.free_other hpath₂
    obtain ⟨cue₄, hpath₄, _⟩ := Path.skipNewlines template cue₃ ts₃
    rw [hcolon] at hpath₄
    obtain ⟨cue₅, hpath₅, hother₅⟩ := Path.skipNewlines template .other ts₄
    obtain rfl := hother₅ rfl
    have hpath₅ := (hpath₃.trans hpath₄).trans (.token (t := .colon) (p := q) (fun _ heq => by cases heq) hpath₅)
    obtain ⟨cue₆, hpath₆, hcue₆, hreads₆⟩ := (ih.ternary hb).skip Cue.free_other hpath₅
    refine ⟨cue₆, hpath₆, Cue.behind hcue₆.1 rfl, fun hsound n hn => ?_⟩
    rw [Expr.reads, List.mem_append, List.mem_append] at hn
    rcases hn with hn | hn | hn
    · exact hreads₁ hsound n hn
    · exact hreads₃ hsound n hn
    · exact hreads₆ hsound n hn

theorem binary_succ (ih : FoundAt template n) {level : Nat}
    (h : Parser.binary template (n + 1) level ts = .ok (e, r)) : Found template ts e r := by
  by_cases hlevel : level < Parser.levels
  · obtain ⟨l, ts₁, hl, hrest⟩ := (Parser.binary_eq_ok hlevel).1 h
    exact (ih.binary hl).behind (ih.binaryRest hrest)
  · rw [Parser.binary_levels hlevel] at h
    exact ih.unary h

theorem binaryRest_succ (ih : FoundAt template n) {level : Nat}
    (h : Parser.binaryRest template (n + 1) level x ts = .ok (e, r)) : FoundBehind template x ts e r := by
  rcases Parser.binaryRest_eq_ok.1 h with ⟨_, rfl, rfl⟩ | ⟨⟨t, p⟩, rest, op, y, ts₁, rfl, hop, hy, hrest⟩
  · exact .refl _ _
  · intro cue _
    obtain ⟨hnext, ht⟩ := Cue.next_of_operator hop cue
    obtain ⟨cue₁, hpath₁, hother⟩ := Path.skipNewlines template .other rest
    obtain rfl := hother rfl
    have hpath₁ : Path template cue (⟨t, p⟩ :: rest) .other (Parser.skipNewlines rest) :=
      .token (fun raw heq => absurd heq (ht raw)) (hnext ▸ hpath₁)
    obtain ⟨cue₂, hpath₂, hcue₂, hreads₂⟩ := (ih.binary hy).skip Cue.free_other hpath₁
    obtain ⟨cue₃, hpath₃, hself, hreads₃⟩ := ih.binaryRest hrest cue₂ (Cue.behind hcue₂.1 rfl)
    refine ⟨cue₃, hpath₂.trans hpath₃, hself, fun hsound n hn => ?_⟩
    rcases hreads₃ (fun hmis => hsound (hpath₂.finds hmis)) n hn with hn | hn
    · rw [Expr.reads, List.mem_append] at hn
      exact hn.imp_right (hreads₂ hsound n)
    · exact .inr (hpath₂.finds hn)

theorem unary_succ (ih : FoundAt template n) (h : Parser.unary template (n + 1) ts = .ok (e, r)) :
    Found template ts e r := by
  rcases Parser.unary_eq_ok.1 h with ⟨t, p, rest, f, y, rfl, hf, hy, rfl⟩ | ⟨_, y, ts₁, hy, hs⟩
  · intro cue _
    obtain ⟨hnext, ht, hsame⟩ := Cue.next_of_prefixed hf cue
    have hpath : Path template cue (⟨t, p⟩ :: rest) .other rest := hnext ▸ .single ht
    obtain ⟨cue', hpath', hcue', hreads⟩ := (ih.unary hy).skip Cue.free_other hpath
    exact ⟨cue', hpath', Cue.behind hcue'.1 (hsame y).1, (hsame y).2 ▸ hreads⟩
  · exact (ih.primary hy).behind (ih.suffixes hs)

theorem suffixes_succ (ih : FoundAt template n) (h : Parser.suffixes template (n + 1) x ts = .ok (e, r)) :
    FoundBehind template x ts e r := by
  rcases Parser.suffixes_eq_ok.1 h with ⟨_, rfl, rfl⟩ | ⟨p, rest, args, ts₁, rfl, hargs, hs⟩ |
    ⟨p, q, name, rest, rfl, hs⟩ | ⟨p, rest, index, q, ts₁, rfl, hindex, hs⟩
  · exact .refl _ _
  · intro cue _
    obtain ⟨cue₁, hpath₁, hcue₁, hreads₁⟩ := ih.arguments (.inl rfl) hargs _ (Cue.free_paren cue)
    have hopen : Path template cue (⟨.leftParen, p⟩ :: rest) (cue.next .leftParen) rest := .single (by rintro raw ⟨⟩)
    have hpath₁ := hopen.trans hpath₁
    obtain ⟨cue₂, hpath₂, hself, hreads₂⟩ := ih.suffixes hs cue₁ (Cue.behind hcue₁ rfl)
    refine ⟨cue₂, hpath₁.trans hpath₂, hself, fun hsound n hn => ?_⟩
    rcases hreads₂ (fun hmis => hsound (hpath₁.finds hmis)) n hn with hn | hn
    · rw [Expr.reads, List.mem_append] at hn
      exact hn.imp_right fun hn => .later (hreads₁ (fun hmis => hsound (.later hmis)) n hn)
    · exact .inr (hpath₁.finds hn)
  · intro cue hself
    have hpath₁ : Path template cue (⟨.dot, p⟩ :: ⟨.identifier name, q⟩ :: rest) .other rest :=
      .token (by rintro raw ⟨⟩) (.single (by rintro raw ⟨⟩))
    obtain ⟨cue₂, hpath₂, hself₂, hreads₂⟩ := ih.suffixes hs .other (Cue.behind (by decide) rfl)
    refine ⟨cue₂, hpath₁.trans hpath₂, hself₂, fun hsound n hn => ?_⟩
    rcases hreads₂ (fun hmis => hsound (hpath₁.finds hmis)) n hn with hn | hn
    · rw [Expr.reads, List.mem_append] at hn
      refine hn.symm.imp_right fun hn => ?_
      split at hn
      · next hx =>
        obtain rfl := List.mem_singleton.1 hn
        exact member_found hself hsound hx
      · cases hn
    · exact .inr (hpath₁.finds hn)
  · intro cue hself
    obtain ⟨cue₁, hpath₁, _, hreads₁⟩ := (ih.ternary hindex).skip (Cue.free_bracket cue)
      (.single (p := p) (by rintro raw ⟨⟩))
    have hpath₁ := hpath₁.trans (.single (by rintro raw ⟨⟩))
    obtain ⟨cue₂, hpath₂, hself₂, hreads₂⟩ := ih.suffixes hs .other (Cue.behind (by decide) rfl)
    refine ⟨cue₂, hpath₁.trans hpath₂, hself₂, fun hsound n hn => ?_⟩
    rcases hreads₂ (fun hmis => hsound (hpath₁.finds hmis)) n hn with hn | hn
    · rw [Expr.reads, List.mem_append, List.mem_append] at hn
      rcases hn with hn | hn | hn
      · exact .inr (key_found hself hsound hindex n hn)
      · exact .inl hn
      · exact .inr (hreads₁ hsound n hn)
    · exact .inr (hpath₁.finds hn)

theorem arguments_succ (ih : FoundAt template n) {close : Token} {unclosed : Token → SyntaxFault} {es : List Expr}
    (hclose : close = .rightParen ∨ close = .rightBracket)
    (h : Parser.arguments template (n + 1) close unclosed ts = .ok (es, r)) : FoundAll template ts es r := by
  have hend : (∀ raw, close ≠ .template raw) ∧ ∀ cue : Cue, cue.next close ≠ .dot := by
    rcases hclose with rfl | rfl
    all_goals exact ⟨by rintro raw ⟨⟩, fun cue => cue.next_ne_dot (by decide) (by decide)⟩
  rcases Parser.arguments_eq_ok.1 h with ⟨p, rfl, rfl⟩ | ⟨t, rest, x, ts₁, _, _, hx, hmore⟩
  · exact fun cue _ => ⟨_, .single hend.1, hend.2 cue, fun _ _ hn => by cases hn⟩
  · intro cue hcue
    obtain ⟨cue₁, hpath₁, _, hreads₁⟩ := ih.ternary hx cue hcue
    rcases hmore with ⟨p, ts₂, xs, rfl, hxs, rfl⟩ | ⟨_, p, rfl, rfl⟩
    · have hpath₁ : Path template cue ts .other ts₂ := hpath₁.trans (.single (t := .comma) (by rintro raw ⟨⟩))
      obtain ⟨cue₂, hpath₂, hcue₂, hreads₂⟩ := ih.arguments hclose hxs .other Cue.free_other
      refine ⟨cue₂, hpath₁.trans hpath₂, hcue₂, fun hsound n hn => ?_⟩
      rw [Expr.readsAll, List.mem_append] at hn
      rcases hn with hn | hn
      · exact hreads₁ hsound n hn
      · exact hpath₁.finds (hreads₂ (fun hmis => hsound (hpath₁.finds hmis)) n hn)
    · refine ⟨_, hpath₁.trans (.single hend.1), hend.2 cue₁, fun hsound n hn => ?_⟩
      rw [Expr.readsAll, Expr.readsAll, List.append_nil] at hn
      exact hreads₁ hsound n hn

theorem atom_found {t : Token} {p : Position} (h : Parser.atom? t = some e) :
    Found template (⟨t, p⟩ :: r) e r := by
  intro cue hcue
  have ht : ∀ raw, t ≠ .template raw := by
    rintro raw rfl
    cases h
  have hdot : cue.next t ≠ .dot := by
    refine cue.next_ne_dot ?_ ?_
    all_goals
      rintro rfl
      cases h
  refine ⟨_, .single ht, ?_⟩
  unfold Parser.atom? at h
  split at h
  all_goals cases h
  case h_6 =>
    refine ⟨⟨hdot, fun _ => .inl (if_neg hcue.2)⟩, fun _ _ hn => ?_⟩
    rw [Expr.reads] at hn
    cases hn
  case h_7 name =>
    refine ⟨Cue.behind hdot rfl, fun _ n hn => ?_⟩
    rw [Expr.reads, List.mem_singleton] at hn
    exact hn ▸ .name hcue
  all_goals
    refine ⟨Cue.behind hdot rfl, fun _ _ hn => ?_⟩
    rw [Expr.reads] at hn
    cases hn

theorem primary_succ (htemplate : TemplateFound template) (ih : FoundAt template n)
    (h : Parser.primary template (n + 1) ts = .ok (e, r)) : Found template ts e r := by
  rcases Parser.primary_eq_ok.1 h with ⟨t, p, rfl, ht⟩ | ⟨raw, p, parts, rfl, hparts, rfl⟩ |
    ⟨p, rest, q, rfl, hinner⟩ | ⟨p, rest, items, rfl, hitems, rfl⟩
  · exact atom_found ht
  · intro cue _
    refine ⟨.other, .token ?_ (.refl _ _), Cue.behind (by decide) rfl, fun hsound n hn => ?_⟩
    · intro raw' heq
      obtain rfl := Token.template.inj heq
      exact ⟨parts, hparts⟩
    · rw [Expr.reads] at hn
      exact htemplate raw parts hparts cue p r hsound n hn
  · intro cue _
    obtain ⟨cue', hpath, hself, hreads⟩ := (ih.ternary hinner).skip (Cue.free_paren cue)
      (.single (p := p) (by rintro raw ⟨⟩))
    exact ⟨_, hpath.trans (.single (by rintro raw ⟨⟩)), ⟨cue'.next_ne_dot (by decide) (by decide),
      fun hx => .inr (if_pos (hself.2 hx))⟩, hreads⟩
  · intro cue _
    obtain ⟨cue', hpath, hcue', hreads⟩ := ih.arguments (.inr rfl) hitems _ (Cue.free_bracket cue)
    refine ⟨cue', (Path.single (by rintro raw ⟨⟩)).trans hpath, Cue.behind hcue' rfl, fun hsound n hn => ?_⟩
    rw [Expr.reads] at hn
    exact .later (hreads (fun hmis => hsound (.later hmis)) n hn)

theorem all (htemplate : TemplateFound template) (n : Nat) : FoundAt template n := by
  induction n with
  | zero =>
    constructor
    all_goals
      intros
      exact absurd ‹_› (Parser.fault_ne_ok _ _ _)
  | succ n ih =>
    exact ⟨ih.ternary_succ, ih.binary_succ, ih.binaryRest_succ, ih.unary_succ, ih.suffixes_succ, ih.arguments_succ,
      ih.primary_succ htemplate⟩

end FoundAt

end References

end LiveSheet
