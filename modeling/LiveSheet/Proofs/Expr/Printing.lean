import LiveSheet.Proofs.Await.Lexing
import LiveSheet.Proofs.Expr.Grammar

/-! Expressions as text: tokens with blanks between them, and parentheses where an operand binds less tightly than its
place asks for. Such a text is read back as the expression. The tokens come back from the text one by one, since no
token goes on across a blank; and they are a phrase of the expression, since parentheses make a primary of any
phrase. -/

namespace LiveSheet.Printing
open Await Token LiveSheet.Parser

def Digits (cs : List Char) : Prop := cs ≠ [] ∧ ∀ c ∈ cs, c.isDigit = true

/-- Digits, then a point and digits or nothing, then an exponent or nothing. -/
def Decimal (text : List Char) : Prop :=
  ∃ whole fraction exponent, text = whole ++ (fraction ++ exponent) ∧ Digits whole ∧
  (fraction = [] ∨ ∃ ds, fraction = '.' :: ds ∧ Digits ds) ∧
  (exponent = [] ∨ ∃ sign ds, exponent = 'e' :: (sign ++ ds) ∧ sign ∈ [[], ['+'], ['-']] ∧ Digits ds)

/-- The name is read as one word. -/
def Wordlike (name : String) : Prop := ∃ c rest, name.toList = c :: rest ∧ Text.isNameStart c = true ∧
  ∀ d ∈ rest, Text.isNamePart d = true

/-- The name is read as an identifier. -/
def Lexable (name : String) : Prop := Wordlike name ∧ ofWord name = .identifier name

def escape (c : Char) : List Char :=
  if c = '\\' then ['\\', '\\'] else if c = '"' then ['\\', '"'] else if c = '\n' then ['\\', 'n'] else [c]

def spelling (numeral : Float → List Char) : Token → List Char
  | .number x => numeral x
  | .string s => '"' :: (s.toList.flatMap escape ++ ['"'])
  | .identifier name => name.toList
  | t => t.text.toList

/-- How tightly an operator binds: the level of binary operators that it belongs to. -/
def level : BinaryOp → Nat
  | .or => 0
  | .and => 1
  | .equal | .notEqual => 2
  | .less | .lessEqual | .greater | .greaterEqual => 3
  | .add | .subtract => 4
  | .multiply | .divide | .remainder => 5

def symbol : BinaryOp → Token
  | .or => .orOr
  | .and => .andAnd
  | .equal => .equal
  | .notEqual => .notEqual
  | .less => .less
  | .lessEqual => .lessEqual
  | .greater => .greater
  | .greaterEqual => .greaterEqual
  | .add => .plus
  | .subtract => .minus
  | .multiply => .star
  | .divide => .slash
  | .remainder => .percent

def sign : UnaryOp → Token
  | .negate => .minus
  | .not => .bang
  | .plus => .plus

/-- How tightly an expression holds together, from the conditional to what needs no parentheses anywhere. -/
def precedence : Expr → Nat
  | .ternary .. => 0
  | .binary op .. => level op + 1
  | .unary .. | .await _ => 8
  | .member .. | .index .. | .call .. => 9
  | _ => 10

def enclosed (least : Nat) (e : Expr) (ts : List Token) : List Token :=
  if least ≤ precedence e then ts else .leftParen :: (ts ++ [.rightParen])

mutual

def tokens : Expr → List Token
  | .number x => [.number x]
  | .string s => [.string s]
  | .boolean b => [if b then .trueWord else .falseWord]
  | .null => [.nullWord]
  | .array items => .leftBracket :: ([Token.comma].intercalate (tokensOfAll items) ++ [.rightBracket])
  | .template _ => []
  | .identifier name => [.identifier name]
  | .self => [.thisWord]
  | .member o name => enclosed 9 o (tokens o) ++ [.dot, .identifier name]
  | .index o i => enclosed 9 o (tokens o) ++ .leftBracket :: (tokens i ++ [.rightBracket])
  | .call f args =>
    enclosed 9 f (tokens f) ++ .leftParen :: ([Token.comma].intercalate (tokensOfAll args) ++ [.rightParen])
  | .unary op e => sign op :: enclosed 8 e (tokens e)
  | .binary op l r => enclosed (level op + 1) l (tokens l) ++ symbol op :: enclosed (level op + 2) r (tokens r)
  | .ternary c a b => enclosed 1 c (tokens c) ++ .question :: (tokens a ++ .colon :: tokens b)
  | .await e => .awaitWord :: enclosed 8 e (tokens e)

def tokensOfAll : List Expr → List (List Token)
  | [] => []
  | e :: es => tokens e :: tokensOfAll es

end

def print (numeral : Float → List Char) (e : Expr) : String :=
  String.ofList ([' '].intercalate ((tokens e).map (spelling numeral)))

/-- The expression has no templates, its names can be read, and its numbers are written as decimals that stand for
them. -/
inductive Printable (numeral : Float → List Char) : Expr → Prop
  | number {x : Float} : Decimal (numeral x) → Number.read? (numeral x) = some x → Printable numeral (.number x)
  | string (s : String) : Printable numeral (.string s)
  | boolean (b : Bool) : Printable numeral (.boolean b)
  | null : Printable numeral .null
  | array {items : List Expr} : (∀ item ∈ items, Printable numeral item) → Printable numeral (.array items)
  | identifier {name : String} : Lexable name → Printable numeral (.identifier name)
  | self : Printable numeral .self
  | member {o : Expr} {name : String} : Printable numeral o → Lexable name → Printable numeral (.member o name)
  | index {o i : Expr} : Printable numeral o → Printable numeral i → Printable numeral (.index o i)
  | call {f : Expr} {args : List Expr} : Printable numeral f → (∀ arg ∈ args, Printable numeral arg) →
      Printable numeral (.call f args)
  | unary (op : UnaryOp) {e : Expr} : Printable numeral e → Printable numeral (.unary op e)
  | binary (op : BinaryOp) {l r : Expr} : Printable numeral l → Printable numeral r → Printable numeral (.binary op l r)
  | ternary {c a b : Expr} : Printable numeral c → Printable numeral a → Printable numeral b →
      Printable numeral (.ternary c a b)
  | await {e : Expr} : Printable numeral e → Printable numeral (.await e)

theorem tokensOfAll_eq_map (es : List Expr) : tokensOfAll es = es.map tokens := by
  induction es with
  | nil => rw [tokensOfAll, List.map_nil]
  | cons e es ih => rw [tokensOfAll, List.map_cons, ih]

/-! The tokens are a phrase. -/

section

variable {template : String → Except SheetError (List (Part Expr))} {ts : List Token} {e : Expr} {m n : Nat}

/-- The phrases that hold together as tightly as a number says. -/
def stratum : Nat → Stratum
  | 0 => .ternary
  | n + 1 => if n ≤ 6 then .binary n else if n = 7 then .prefixed else if n = 8 then .suffixed else .primary

theorem derives_looser (h : Derives template (stratum (n + 1)) ts e) : Derives template (stratum n) ts e := by
  by_cases hzero : n = 0
  · subst hzero
    exact .simple h
  by_cases hbinary : n ≤ 6
  · obtain ⟨level, rfl⟩ := Nat.exists_eq_succ_of_ne_zero hzero
    simp only [stratum, if_pos hbinary, if_pos (Nat.le_of_succ_le hbinary)] at h ⊢
    exact .operand hbinary h
  by_cases htight : n = 7
  · subst htight
    exact .tight h
  by_cases hbare : n = 8
  · subst hbare
    exact .bare h
  by_cases honly : n = 9
  · subst honly
    exact .operandOnly h
  · obtain ⟨level, rfl⟩ := Nat.exists_eq_succ_of_ne_zero hzero
    have hprimary : ∀ k, 9 ≤ k → stratum (k + 1) = .primary := by
      intro k hk
      rw [stratum, if_neg (by omega), if_neg (by omega), if_neg (by omega)]
    rw [hprimary _ (by omega)] at h ⊢
    exact h

theorem derives_loose (hle : m ≤ n) (h : Derives template (stratum n) ts e) : Derives template (stratum m) ts e := by
  induction hle with
  | refl => exact h
  | step _ ih => exact ih (derives_looser h)

theorem derives_phrase (h : Derives template .prefixed ts e) : Derives template .ternary ts e :=
  derives_loose (m := 0) (n := 8) (Nat.zero_le 8) h

theorem derives_enclosed (hle : m ≤ 10) (h : Derives template (stratum (precedence e)) ts e) :
    Derives template (stratum m) (enclosed m e ts) e := by
  unfold enclosed
  split
  · next hprecedence => exact derives_loose hprecedence h
  · exact derives_loose hle (n := 10) (.group (derives_loose (Nat.zero_le _) h))

theorem joins_symbol (op : BinaryOp) : Joins (level op) (symbol op) op := by
  cases op <;> constructor

theorem derives_tokens {numeral : Float → List Char} (h : Printable numeral e) :
    Derives template (stratum (precedence e)) (tokens e) e := by
  have hlisted : ∀ es : List Expr, Listed ((es.map fun e => (tokens e, e)).map Prod.fst)
      ([Token.comma].intercalate (tokensOfAll es)) := by
    intro es
    rw [List.map_map, tokensOfAll_eq_map]
    exact .inl rfl
  have hitems : ∀ es : List Expr, (∀ e ∈ es, Derives template (stratum (precedence e)) (tokens e) e) →
      ∀ item ∈ es.map fun e => (tokens e, e), Derives template .ternary item.1 item.2 := by
    intro es hes item hitem
    obtain ⟨e, he, rfl⟩ := List.mem_map.1 hitem
    exact derives_loose (m := 0) (Nat.zero_le _) (hes e he)
  have hsame : ∀ es : List Expr, (es.map fun e => (tokens e, e)).map Prod.snd = es := by
    intro es
    rw [List.map_map]
    exact List.map_id es
  induction h with
  | number => exact .number _
  | string => exact .string _
  | boolean b => cases b with
    | false => exact .false
    | true => exact .true
  | null => exact .null
  | @array items _ ih =>
    have harray := Derives.array (hitems items ih) (hlisted items)
    rwa [hsame] at harray
  | identifier => exact .identifier _
  | self => exact .this
  | member _ _ ih => exact .member (derives_enclosed (m := 9) (by decide) ih)
  | index _ _ iho ihi =>
    exact .index (derives_enclosed (m := 9) (by decide) iho) (derives_loose (m := 0) (Nat.zero_le _) ihi)
  | @call f args _ _ ihf ihargs =>
    have hcall := Derives.call (derives_enclosed (m := 9) (by decide) ihf) (hitems args ihargs) (hlisted args)
    rwa [hsame] at hcall
  | unary op _ ih => cases op with
    | negate => exact .negate (derives_enclosed (m := 8) (by decide) ih)
    | not => exact .not (derives_enclosed (m := 8) (by decide) ih)
    | plus => exact .plus (derives_enclosed (m := 8) (by decide) ih)
  | @binary op l r _ _ ihl ihr =>
    have hlevel : level op ≤ 5 := by cases op <;> decide
    have hl := derives_enclosed (m := level op + 1) (by omega) ihl
    have hr := derives_enclosed (m := level op + 2) (by omega) ihr
    rw [stratum, if_pos (by omega)] at hl hr
    rw [precedence, stratum, if_pos (by omega)]
    exact .join 0 (joins_symbol op) hl hr
  | ternary _ _ _ ihc iha ihb =>
    exact .choice 0 0 0 (derives_enclosed (m := 1) (by decide) ihc) (derives_loose (m := 0) (Nat.zero_le _) iha)
      (derives_loose (m := 0) (Nat.zero_le _) ihb)
  | await _ ih => exact .await (derives_enclosed (m := 8) (by decide) ih)

end

/-! The text is read as the tokens. -/

variable {numeral : Float → List Char} {nesting : Nat} {last : Option Token} {next : List Char} {ts : List Token}

/-- The token can be read back from its text. -/
def Spellable (numeral : Float → List Char) : Token → Prop
  | .number x => Decimal (numeral x) ∧ Number.read? (numeral x) = some x
  | .identifier name => Lexable name
  | .template _ | .newline | .eof => False
  | _ => True

theorem spellable_between {left right : Token} (hleft : Spellable numeral left) (hright : Spellable numeral right)
    (h : ∀ t ∈ ts, Spellable numeral t) : ∀ t ∈ left :: (ts ++ [right]), Spellable numeral t :=
  List.forall_mem_cons.2 ⟨hleft, List.forall_mem_append.2 ⟨h, List.forall_mem_singleton.2 hright⟩⟩

theorem spellable_enclosed {least : Nat} {e : Expr} (h : ∀ t ∈ ts, Spellable numeral t) :
    ∀ t ∈ enclosed least e ts, Spellable numeral t := by
  unfold enclosed
  split
  · exact h
  · exact spellable_between trivial trivial h

theorem spellable_tokensOfAll {es : List Expr} (h : ∀ e ∈ es, ∀ t ∈ tokens e, Spellable numeral t) :
    ∀ t ∈ [Token.comma].intercalate (tokensOfAll es), Spellable numeral t := by
  rw [tokensOfAll_eq_map]
  induction es with
  | nil => exact List.forall_mem_nil _
  | cons e es ih =>
    obtain ⟨he, hes⟩ := List.forall_mem_cons.1 h
    cases es with
    | nil =>
      rw [List.map_singleton, List.intercalate_singleton]
      exact he
    | cons e' es =>
      rw [List.map_cons, List.map_cons, List.intercalate_cons_cons, List.forall_mem_append, List.forall_mem_append]
      exact ⟨⟨he, List.forall_mem_singleton.2 trivial⟩, ih hes⟩

theorem spellable_tokens {e : Expr} (h : Printable numeral e) : ∀ t ∈ tokens e, Spellable numeral t := by
  induction h with
  | number hdecimal hread => exact List.forall_mem_singleton.2 ⟨hdecimal, hread⟩
  | boolean b => cases b <;> exact List.forall_mem_singleton.2 trivial
  | string | null | self => exact List.forall_mem_singleton.2 trivial
  | array _ ih => exact spellable_between trivial trivial (spellable_tokensOfAll ih)
  | identifier h => exact List.forall_mem_singleton.2 h
  | member _ h ih =>
    exact List.forall_mem_append.2
      ⟨spellable_enclosed ih, List.forall_mem_cons.2 ⟨trivial, List.forall_mem_singleton.2 h⟩⟩
  | index _ _ iho ihi =>
    exact List.forall_mem_append.2 ⟨spellable_enclosed iho, spellable_between trivial trivial ihi⟩
  | call _ _ ihf ihargs =>
    exact List.forall_mem_append.2
      ⟨spellable_enclosed ihf, spellable_between trivial trivial (spellable_tokensOfAll ihargs)⟩
  | unary op _ ih => exact List.forall_mem_cons.2 ⟨by cases op <;> trivial, spellable_enclosed ih⟩
  | binary op _ _ ihl ihr =>
    exact List.forall_mem_append.2
      ⟨spellable_enclosed ihl, List.forall_mem_cons.2 ⟨by cases op <;> trivial, spellable_enclosed ihr⟩⟩
  | ternary _ _ _ ihc iha ihb =>
    exact List.forall_mem_append.2 ⟨spellable_enclosed ihc,
      List.forall_mem_cons.2 ⟨trivial, List.forall_mem_append.2 ⟨iha, List.forall_mem_cons.2 ⟨trivial, ihb⟩⟩⟩⟩
  | await _ ih => exact List.forall_mem_cons.2 ⟨trivial, spellable_enclosed ih⟩

/-- Nothing that a token in front could go on with. -/
def Apart (next : List Char) : Prop := ∀ c, next.head? = some c → c ∈ [' ', ',', ')', ']']

theorem Apart.head_any (h : Apart next) {f : Char → Bool} (hf : ∀ c ∈ [' ', ',', ')', ']'], f c = false) :
    next.head?.any f = false := by
  cases next with
  | nil => rfl
  | cons c next => simpa using hf c (h c rfl)

theorem Apart.startsPoint (h : Apart next) : startsPoint next = false := by
  unfold Await.startsPoint
  split
  · exact absurd (h '.' rfl) (by decide)
  · rfl

theorem Apart.joins (h : Apart next) (m : Mark) : m.joins next = false := by
  have hne : ∀ c, c ∉ [' ', ',', ')', ']'] → (next.head? == some c) = false := by
    intro c hc
    refine Bool.eq_false_iff.2 fun heq => hc ?_
    exact h c (by simpa using heq)
  cases m
  case dot => exact h.head_any (by decide)
  case assign | equal | bang | notEqual | less | greater => exact hne '=' (by decide)
  case slash => exact hne '/' (by decide)
  all_goals rfl

theorem reads_mark (m : Mark) (hnext : Apart next) (h : Reads nesting (some m.token) next ts) :
    Reads nesting last (m.chars ++ next) (m.token :: ts) :=
  .atom (a := .mark m) (hnext.joins m) h

theorem reads_word (name : String) (hname : Wordlike name) (hnext : Apart next)
    (h : Reads nesting (some (ofWord name)) next ts) :
    Reads nesting last (name.toList ++ next) (ofWord name :: ts) := by
  obtain ⟨c, rest, hchars, hc, hrest⟩ := hname
  have hfits : (Atom.word name.toList).Fits next := by
    refine ⟨⟨c, rest, hchars, hc⟩, ?_, hnext.head_any (by decide)⟩
    rw [hchars]
    exact List.forall_mem_cons.2 ⟨Text.isNamePart_of_isNameStart hc, hrest⟩
  have htoken : (Atom.word name.toList).token = ofWord name := by rw [Atom.token, String.ofList_toList]
  rw [← htoken] at h ⊢
  exact .atom hfits h

def glyph (c : Char) : Glyph :=
  if c = '\\' ∨ c = '"' then .escaped c else if c = '\n' then .escaped 'n' else .plain c

theorem glyph_spec (c : Char) : (glyph c).chars = escape c ∧ (glyph c).value = c ∧ (glyph c).Inside '"' := by
  by_cases hbackslash : c = '\\'
  · subst hbackslash
    exact ⟨rfl, rfl, trivial⟩
  by_cases hquote : c = '"'
  · subst hquote
    exact ⟨rfl, rfl, trivial⟩
  by_cases hline : c = '\n'
  · subst hline
    exact ⟨rfl, rfl, trivial⟩
  simp only [glyph, escape, hbackslash, hquote, hline, or_self, if_false]
  exact ⟨rfl, rfl, hquote, hbackslash, hline⟩

theorem reads_quoted {body : List Glyph} {s : String} (hvalue : body.map Glyph.value = s.toList)
    (hbody : ∀ g ∈ body, g.Inside '"') (h : Reads nesting (some (.string s)) next ts) :
    Reads nesting last ('"' :: (spell body ++ ['"']) ++ next) (.string s :: ts) := by
  have htoken : (Atom.quoted '"' body).token = .string s := by rw [Atom.token, hvalue, String.ofList_toList]
  rw [← htoken] at h ⊢
  exact .atom (a := .quoted '"' body) ⟨.inl rfl, hbody⟩ h

theorem reads_string {s : String} (h : Reads nesting (some (.string s)) next ts) :
    Reads nesting last ('"' :: (s.toList.flatMap escape ++ ['"']) ++ next) (.string s :: ts) := by
  have hchars : s.toList.flatMap escape = spell (s.toList.map glyph) := by
    rw [spell, List.flatMap_map]
    exact congrArg s.toList.flatMap (funext fun c => (glyph_spec c).1.symm)
  have hvalue : (s.toList.map glyph).map Glyph.value = s.toList := by
    rw [List.map_map]
    exact List.map_id'' (fun c => (glyph_spec c).2.1) _
  rw [hchars]
  refine reads_quoted hvalue (fun g hg => ?_) h
  obtain ⟨c, _, rfl⟩ := List.mem_map.1 hg
  exact (glyph_spec c).2.2

theorem numberText_digits {ds : List Char} (h : ∀ c ∈ ds, c.isDigit = true) (point exponent : Bool) (rest : List Char) :
    numberText point exponent (ds ++ rest) =
      (ds ++ (numberText point exponent rest).1, (numberText point exponent rest).2) := by
  induction ds with
  | nil => rfl
  | cons c ds ih =>
    obtain ⟨hc, hds⟩ := List.forall_mem_cons.1 h
    rw [List.cons_append, numberText.eq_def]
    simp only [if_pos hc, ih hds, List.cons_append]

theorem numberText_exponent {sign ds : List Char} (hsign : sign ∈ [[], ['+'], ['-']]) (hds : Digits ds) (point : Bool) :
    numberText point false ('e' :: (sign ++ ds)) = ('e' :: (sign ++ ds), []) := by
  have hend : numberText point true ds = (ds, []) := by
    have hall := numberText_digits hds.2 point true []
    rw [List.append_nil] at hall
    exact hall.trans (congrArg (·, []) (List.append_nil ds))
  simp only [List.mem_cons, List.not_mem_nil, or_false] at hsign
  rcases hsign with rfl | rfl | rfl
  · obtain ⟨d, ds, rfl⟩ := List.exists_cons_of_ne_nil hds.1
    have hd : ¬(d = '+' ∨ d = '-') := by
      rintro (rfl | rfl) <;> exact absurd (hds.2 _ List.mem_cons_self) (by decide)
    rw [List.nil_append, numberText.eq_def]
    simp [hd, hend]
  all_goals
    rw [List.singleton_append, numberText.eq_def]
    simp [hend]

theorem Decimal.exists_cons {text : List Char} (h : Decimal text) : ∃ first rest, text = first :: rest ∧
    first.isDigit = true ∧ numberText (first == '.') false rest = (rest, []) ∧
    text.getLast?.any (fun c => c.isDigit || c == '_') = true := by
  obtain ⟨whole, fraction, exponent, rfl, ⟨hne, hwhole⟩, hfraction, hexponent⟩ := h
  have hlast : ∀ (front : List Char) {ds : List Char}, Digits ds →
      (front ++ ds).getLast?.any (fun c => c.isDigit || c == '_') = true := by
    intro front ds hds
    rw [List.getLast?_append, List.getLast?_eq_some_getLast hds.1]
    simp [hds.2 _ (List.getLast_mem hds.1)]
  have hpower : ∀ point, numberText point false exponent = (exponent, []) := by
    intro point
    rcases hexponent with rfl | ⟨sign, ds, rfl, hsign, hds⟩
    · rfl
    · exact numberText_exponent hsign hds point
  have hplaces : numberText false false (fraction ++ exponent) = (fraction ++ exponent, []) := by
    rcases hfraction with rfl | ⟨ds, rfl, hds⟩
    · exact hpower false
    · have hhead : (ds ++ exponent).head?.any Char.isDigit = true := by
        obtain ⟨d, ds, rfl⟩ := List.exists_cons_of_ne_nil hds.1
        exact hds.2 d List.mem_cons_self
      rw [List.cons_append, numberText.eq_def]
      simp only [hhead]
      simp [numberText_digits hds.2, hpower]
  obtain ⟨d, whole, rfl⟩ := List.exists_cons_of_ne_nil hne
  obtain ⟨hd, hdigits⟩ := List.forall_mem_cons.1 hwhole
  have hpoint : (d == '.') = false := by
    refine Bool.eq_false_iff.2 fun heq => ?_
    rw [eq_of_beq heq] at hd
    cases hd
  refine ⟨d, whole ++ (fraction ++ exponent), rfl, hd, ?_, ?_⟩
  · rw [hpoint, numberText_digits hdigits, hplaces]
  · rcases hexponent with rfl | ⟨sign, ds, rfl, _, hds⟩
    · rcases hfraction with rfl | ⟨ds, rfl, hds⟩
      · simpa using hlast [] ⟨hne, hwhole⟩
      · simpa using hlast (d :: whole ++ ['.']) hds
    · simpa using hlast (d :: whole ++ (fraction ++ 'e' :: sign)) hds

theorem reads_number {text : List Char} {x : Float} (hdecimal : Decimal text) (hx : Number.read? text = some x)
    (hnext : Apart next) (h : Reads nesting (some (.number x)) next ts) :
    Reads nesting last (text ++ next) (.number x :: ts) := by
  obtain ⟨first, rest, rfl, hfirst, htext, hlast⟩ := hdecimal.exists_cons
  exact .atom (a := .number first rest rest x)
    ⟨.inl hfirst, htext, hx, hlast, hnext.head_any (by decide), hnext.startsPoint⟩ h

theorem reads_spelling {t : Token} (ht : Spellable numeral t) (hnext : Apart next)
    (h : Reads (nestingAfter nesting t) (some t) next ts) :
    Reads nesting last (spelling numeral t ++ next) (t :: ts) := by
  cases t with
  | number x => exact reads_number ht.1 ht.2 hnext h
  | string s => exact reads_string h
  | identifier name =>
    obtain ⟨hword, hname⟩ := ht
    have hrest : Reads nesting (some (.identifier name)) next ts := h
    rw [← hname] at hrest
    have hread : Reads nesting last _ _ := reads_word name hword hnext hrest
    rwa [hname] at hread
  | template | newline | eof => exact ht.elim
  | leftParen => exact Bracket.round.reads_opening h
  | leftBracket => exact Bracket.square.reads_opening h
  | rightParen | rightBracket =>
    exact .cons (by decide) (by decide) (fun hc => absurd hc (by decide)) (fun p => ⟨p.right 1, rfl⟩) h
  | trueWord => exact reads_word "true" ⟨'t', _, rfl, by decide, by decide⟩ hnext h
  | falseWord => exact reads_word "false" ⟨'f', _, rfl, by decide, by decide⟩ hnext h
  | nullWord => exact reads_word "null" ⟨'n', _, rfl, by decide, by decide⟩ hnext h
  | thisWord => exact reads_word "this" ⟨'t', _, rfl, by decide, by decide⟩ hnext h
  | awaitWord => exact reads_word "await" ⟨'a', _, rfl, by decide, by decide⟩ hnext h
  | letWord => exact reads_word "let" ⟨'l', _, rfl, by decide, by decide⟩ hnext h
  | comma => exact reads_mark .comma hnext h
  | dot => exact reads_mark .dot hnext h
  | semicolon => exact reads_mark .semicolon hnext h
  | question => exact reads_mark .question hnext h
  | colon => exact reads_mark .colon hnext h
  | assign => exact reads_mark .assign hnext h
  | plus => exact reads_mark .plus hnext h
  | minus => exact reads_mark .minus hnext h
  | star => exact reads_mark .star hnext h
  | slash => exact reads_mark .slash hnext h
  | percent => exact reads_mark .percent hnext h
  | bang => exact reads_mark .bang hnext h
  | andAnd => exact reads_mark .andAnd hnext h
  | orOr => exact reads_mark .orOr hnext h
  | equal => exact reads_mark .equal hnext h
  | notEqual => exact reads_mark .notEqual hnext h
  | less => exact reads_mark .less hnext h
  | lessEqual => exact reads_mark .lessEqual hnext h
  | greater => exact reads_mark .greater hnext h
  | greaterEqual => exact reads_mark .greaterEqual hnext h

theorem reads_spellings (h : ∀ t ∈ ts, Spellable numeral t) (nesting : Nat) (last : Option Token) :
    Reads nesting last ([' '].intercalate (ts.map (spelling numeral))) (ts ++ [.eof]) := by
  induction ts generalizing nesting last with
  | nil => exact .nil
  | cons t ts ih =>
    obtain ⟨ht, hts⟩ := List.forall_mem_cons.1 h
    have hrest := ih hts (nestingAfter nesting t) (some t)
    cases ts with
    | nil =>
      rw [List.map_singleton, List.intercalate_singleton, ← List.append_nil (spelling numeral t)]
      exact reads_spelling ht (fun c hc => nomatch hc) hrest
    | cons t' ts =>
      rw [List.map_cons, List.map_cons, List.intercalate_cons_cons, List.append_assoc]
      refine reads_spelling ht (fun c hc => ?_) (.blank (by decide) (by decide) hrest)
      obtain rfl : ' ' = c := Option.some.inj hc
      exact List.mem_cons_self

/-- The text of an expression is read as the expression. -/
theorem parse_print {numeral : Float → List Char} {e : Expr} (h : Printable numeral e) :
    Expr.parse (print numeral e) = .ok e := by
  obtain ⟨ts, hts, htokens⟩ := reads_spellings (spellable_tokens h) 0 none ⟨1, 1⟩
  obtain ⟨ts, rest, rfl, hphrase, hend⟩ := List.map_eq_append_iff.1 htokens
  obtain ⟨⟨_, p⟩, rfl, rfl⟩ := List.map_eq_singleton_iff.1 hend
  rw [Expr.parse, expressionOf, print, String.toList_ofList, tokenize, hts]
  have hgap : ([] : Tokens).map (·.token) = newlines 0 := rfl
  exact Derives.only (derives_loose (m := 0) (Nat.zero_le _) (derives_tokens h)) hphrase hgap p []

/-- A difference under a product is in parentheses, and so is a difference that another one subtracts. -/
theorem parse_print_product : let numeral := fun _ : Float => "2.5".toList
    let e : Expr := .binary .multiply
      (.binary .subtract (.identifier "a") (.binary .subtract (.identifier "b") (.number 2.5)))
      (.unary .negate (.call (.member .self "f") [.string "\"\\\n", .array []]))
    print numeral e = "( a - ( b - 2.5 ) ) * - this . f ( \"\\\"\\\\\\n\" , [ ] )" ∧
      Expr.parse (print numeral e) = .ok e := by
  intro numeral e
  have hdecimal : Decimal "2.5".toList := by
    have hdigit : ∀ c : Char, c.isDigit = true → Digits [c] := fun c hc => ⟨List.cons_ne_nil c [], by simpa using hc⟩
    exact ⟨['2'], ['.', '5'], [], rfl, hdigit '2' rfl, .inr ⟨['5'], rfl, hdigit '5' rfl⟩, .inl rfl⟩
  have hname : ∀ name ∈ ["a", "b", "f"], Lexable name := by
    simp only [List.forall_mem_cons, List.not_mem_nil, false_implies, implies_true, and_true]
    exact ⟨⟨⟨'a', [], rfl, by decide, by simp⟩, rfl⟩, ⟨⟨'b', [], rfl, by decide, by simp⟩, rfl⟩,
      ⟨'f', [], rfl, by decide, by simp⟩, rfl⟩
  have he : Printable numeral e := by
    refine .binary _ (.binary _ (.identifier (hname "a" (by simp))) (.binary _ (.identifier (hname "b" (by simp)))
      (.number hdecimal (by decide)))) (.unary _ (.call (.member .self (hname "f" (by simp))) ?_))
    simp only [List.forall_mem_cons, List.not_mem_nil, false_implies, implies_true, and_true]
    exact ⟨.string _, .array (List.forall_mem_nil _)⟩
  exact ⟨by decide, parse_print he⟩

end LiveSheet.Printing
