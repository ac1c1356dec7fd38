import LiveSheet.Proofs.Eval.Isolated
import LiveSheet.Proofs.Expr.Printing
import LiveSheet.Proofs.Expr.Script
import LiveSheet.Proofs.Reference.Placeholders
import LiveSheet.Proofs.Reference.Values

/-! What the source text of a value evaluates to. Text, tokens, expression and value are followed together, piece by
piece: a piece is the text of a phrase that binds as tightly as an operator in front of an operand, so it stands for its
value wherever a name could stand. The pieces of an array are its items. -/

namespace LiveSheet

namespace Value

/-- The text of a number is read as an equal number. -/
def RoundTrips (n : Float) : Prop := ∃ x, Number.read? (Number.dataFile.writeShort n).toList = some x ∧ (x == n) = true

mutual

/-- The finite numbers of a value can be written and read. -/
def Readable : Value → Prop
  | number n => n.isFinite = true → RoundTrips n
  | array items => ReadableItems items
  | _ => True

def ReadableItems : List Value → Prop
  | [] => True
  | v :: vs => v.Readable ∧ ReadableItems vs

end

/-- How the lexer of expressions reads a character that was escaped for a data file. It does not know the escapes of
backspace and form feed and those by number, and takes what stands behind the backslash as it is. -/
def misread (c : Char) : List Char :=
  if c = '\x08' then ['b']
  else if c = '\x0c' then ['f']
  else if c.toNat < 0x20 ∧ c ∉ ['\n', '\r', '\t'] then
    ['u', '0', '0', (c.toNat / 16).digitChar, (c.toNat % 16).digitChar]
  else [c]

mutual

/-- What the source text of a value evaluates to, given what the words that numbers are written with stand for. -/
def reread (word : String → Value) : Value → Value
  | number n =>
    if n.isNaN then word "NaN"
    else if n.isInf then (if n < 0 then (word "Infinity").unary .negate else word "Infinity")
    else number ((Number.read? (Number.dataFile.writeShort n).toList).getD n)
  | string s => string (String.ofList (s.toList.flatMap misread))
  | array items => array (rereadItems word items)
  | v => v

def rereadItems (word : String → Value) : List Value → List Value
  | [] => []
  | v :: vs => v.reread word :: rereadItems word vs

end

mutual

/-- The same value. Numbers are compared as numbers, and NaN is like itself. -/
def agrees : Value → Value → Bool
  | null, null => true
  | bool a, bool b => a == b
  | number a, number b => a == b || (a.isNaN && b.isNaN)
  | string a, string b => a == b
  | array a, array b => agreesItems a b
  | _, _ => false

def agreesItems : List Value → List Value → Bool
  | [], [] => true
  | a :: as, b :: bs => agrees a b && agreesItems as bs
  | _, _ => false

end

mutual

/-- The strings have no control characters but line ends, returns and tabs, and the words that numbers are written with
are not the names of something else. -/
def Plain (shadowed : String → Bool) : Value → Prop
  | number n => (n.isNaN = true → shadowed "NaN" = false) ∧ (n.isInf = true → shadowed "Infinity" = false)
  | string s => ∀ c ∈ s.toList, c.toNat < 0x20 → c ∈ ['\n', '\r', '\t']
  | array items => PlainItems shadowed items
  | _ => True

def PlainItems (shadowed : String → Bool) : List Value → Prop
  | [] => True
  | v :: vs => v.Plain shadowed ∧ PlainItems shadowed vs

end

end Value

/-! Numbers. -/

namespace Number
open Printing

theorem digits_toDigits (n : Nat) : Digits (Nat.toDigits 10 n) :=
  ⟨(References.toDigits_isDigit n).2, (References.toDigits_isDigit n).1⟩

theorem Layout.decimal_positional (layout : Layout) {digits : List Char} (h : Digits digits) (exponent : Int) :
    Printing.Decimal (layout.writePositional digits exponent) := by
  obtain ⟨hne, hdigits⟩ := h
  simp only [writePositional]
  split
  · have hwhole : Digits (digits ++ zeros exponent.toNat) :=
      ⟨List.append_ne_nil_of_left_ne_nil hne _, List.forall_mem_append.2 ⟨hdigits, References.zeros_isDigit _⟩⟩
    refine ⟨_, if layout.pointZero then ['.', '0'] else [], [], by rw [List.append_nil], hwhole, ?_, .inl rfl⟩
    split
    · exact .inr ⟨['0'], rfl, List.cons_ne_nil _ _, by decide⟩
    · exact .inl rfl
  · split
    · have hfront : digits.take (digits.length - (-exponent).toNat) ≠ [] :=
        List.length_pos_iff.1 (by rw [List.length_take]; omega)
      have hback : digits.drop (digits.length - (-exponent).toNat) ≠ [] :=
        List.length_pos_iff.1 (by rw [List.length_drop]; omega)
      exact ⟨_, _, [], by rw [List.append_nil], ⟨hfront, fun c hc => hdigits c (List.mem_of_mem_take hc)⟩,
        .inr ⟨_, rfl, hback, fun c hc => hdigits c (List.mem_of_mem_drop hc)⟩, .inl rfl⟩
    · refine ⟨['0'], '.' :: (zeros ((-exponent).toNat - digits.length) ++ digits), [], by simp,
        ⟨List.cons_ne_nil _ _, by decide⟩, .inr ⟨_, rfl, ?_, ?_⟩, .inl rfl⟩
      · exact List.append_ne_nil_of_right_ne_nil _ hne
      · exact List.forall_mem_append.2 ⟨References.zeros_isDigit _, hdigits⟩

theorem Layout.decimal_scientific (layout : Layout) {digits : List Char} (h : Digits digits) (first : Int) :
    Printing.Decimal (layout.writeScientific digits first) := by
  have hexponent : ∃ sign ds,
      'e' :: (if first < 0 then '-' else '+') :: Nat.toDigits 10 first.natAbs = 'e' :: (sign ++ ds) ∧
      sign ∈ [[], ['+'], ['-']] ∧ Digits ds :=
    ⟨[if first < 0 then '-' else '+'], _, rfl, by split <;> simp, digits_toDigits _⟩
  obtain ⟨hne, hdigits⟩ := h
  obtain ⟨d, rest, rfl⟩ := List.exists_cons_of_ne_nil hne
  obtain ⟨hd, hrest⟩ := List.forall_mem_cons.1 hdigits
  have hwhole : Digits [d] := ⟨List.cons_ne_nil _ _, List.forall_mem_singleton.2 hd⟩
  cases rest with
  | nil => exact ⟨[d], [], _, rfl, hwhole, .inl rfl, .inr hexponent⟩
  | cons d' rest =>
    exact ⟨[d], '.' :: d' :: rest, _, rfl, hwhole, .inr ⟨_, rfl, List.cons_ne_nil _ _, hrest⟩, .inr hexponent⟩

theorem Layout.decimal_writeDecimal (layout : Layout) (d : Number.Decimal) :
    Printing.Decimal (layout.writeDecimal d) := by
  simp only [writeDecimal]
  split
  · split
    · exact decimal_positional layout (digits_toDigits _) _
    · exact decimal_scientific layout (digits_toDigits _) _
  · exact decimal_positional layout (digits_toDigits _) _

theorem writeShort_cases (n : Float) : (dataFile.writeShort n).toList = "null".toList ∨
    ∃ sign digits, (dataFile.writeShort n).toList = sign ++ digits ∧ (sign = [] ∨ sign = ['-']) ∧
      Printing.Decimal digits := by
  have hsign : ∀ {negative : Prop} [Decidable negative], (if negative then ['-'] else []) = [] ∨
      (if negative then ['-'] else []) = ['-'] := by
    intro negative _
    split
    · exact .inr rfl
    · exact .inl rfl
  unfold Layout.writeShort
  split
  · next n _ =>
    exact .inr ⟨_, _, String.toList_ofList, hsign, _, [], [], by simp, digits_toDigits n, .inl rfl, .inl rfl⟩
  · unfold Layout.write
    split
    · exact .inl rfl
    · split <;> exact .inl rfl
    · exact .inr ⟨_, _, String.toList_ofList, hsign, Layout.decimal_writeDecimal _ _⟩

theorem decimal_writeShort {n x : Float} (h : read? (dataFile.writeShort n).toList = some x) :
    ∃ sign digits, (dataFile.writeShort n).toList = sign ++ digits ∧ (sign = [] ∨ sign = ['-']) ∧
      Printing.Decimal digits := by
  refine (writeShort_cases n).resolve_left fun hnull => ?_
  have hnone : read? "null".toList = none := by decide
  rw [hnull, hnone] at h
  cases h

theorem read?_digits {digits : List Char} (h : Printing.Decimal digits) : read? digits = unsigned? digits := by
  obtain ⟨c, rest, rfl, hc, _⟩ := h.exists_cons
  unfold read?
  split
  · next heq =>
    rw [(List.cons.inj heq).1] at hc
    exact absurd hc (by decide)
  · next heq =>
    rw [(List.cons.inj heq).1] at hc
    exact absurd hc (by decide)
  · rfl

theorem isFinite_of_not {n : Float} (hnan : ¬n.isNaN = true) (hinf : ¬n.isInf = true) : n.isFinite = true := by
  have hparts : ∀ u : Float.Model.UnpackedFloat, ¬u.isNaN = true → ¬u.isInf = true → u.isFinite = true := by
    intro u hnan hinf
    cases u with
    | infinity => exact absurd rfl hinf
    | notANumber => exact absurd rfl hnan
    | zero | finite => rfl
  exact hparts _ hnan hinf

theorem beq_infinity {n : Float} (h : n.isInf = true) : ((if n < 0 then -infinity else infinity) == n) = true := by
  have hlt : n < 0 ↔ n.toModel.unpack.lt (.zero .positive) = true := decide_eq_true_iff
  have hbeq : ∀ x : Float, (x == n) = x.toModel.unpack.beq n.toModel.unpack := fun _ => rfl
  have hpositive : infinity.toModel.unpack = .infinity .positive := rfl
  have hnegative : (-infinity).toModel.unpack = .infinity .negative := rfl
  have hinf : n.toModel.unpack.isInf = true := h
  simp only [hlt, hbeq]
  generalize n.toModel.unpack = u at hinf
  cases u with
  | infinity sign => cases sign with
    | negative => exact congrArg (·.beq (.infinity .negative)) hnegative
    | positive => exact congrArg (·.beq (.infinity .positive)) hpositive
  | notANumber | zero | finite => cases hinf

end Number

/-! Pieces of text. -/

namespace Eval
open Await Token LiveSheet.Parser Printing

variable {σ : Type} {cs : List Char}

/-- The text stands for an operand with a value, which may depend on what the names stand for. Evaluating it changes
nothing. -/
def Speaks (cs : List Char) (value : Setting σ → Machine σ → Value) : Prop := ∃ (ts : List Token) (e : Expr),
  (∀ nesting last next rest, Apart next → (∀ last, Reads nesting last next rest) →
    Reads nesting last (cs ++ next) (ts ++ rest)) ∧
  (∀ template, Derives template .prefixed ts e) ∧ ∀ env awaited m, exec (eval env awaited e) m = (.ok (value env m), m)

variable {value : Setting σ → Machine σ → Value}

theorem speaks_atom {t : Token} {e : Expr} (he : atom? t = some e)
    (hreads : ∀ nesting last next rest, Apart next → Reads nesting (some t) next rest →
      Reads nesting last (cs ++ next) (t :: rest))
    (hvalue : ∀ env awaited m, exec (eval env awaited e) m = (.ok (value env m), m)) : Speaks cs value :=
  ⟨[t], e, fun nesting last next rest hnext hrest => hreads nesting last next rest hnext (hrest (some t)),
    fun _ => .bare (.operandOnly (derives_atom he)), hvalue⟩

theorem speaks_word (word : String) {e : Expr} (hword : Wordlike word) (he : atom? (ofWord word) = some e)
    (hvalue : ∀ env awaited m, exec (eval env awaited e) m = (.ok (value env m), m)) : Speaks word.toList value :=
  speaks_atom he (fun _ _ _ _ hnext hrest => reads_word word hword hnext hrest) hvalue

theorem speaks_number {x : Float} (hdecimal : Decimal cs) (hx : Number.read? cs = some x) :
    Speaks cs fun (_ : Setting σ) _ => .number x :=
  speaks_atom (t := .number x) rfl (fun _ _ _ _ hnext hrest => reads_number hdecimal hx hnext hrest) fun _ _ _ => rfl

theorem Speaks.negated (h : Speaks cs value) : Speaks ('-' :: cs) fun env m => (value env m).unary .negate := by
  obtain ⟨ts, e, hreads, hderives, hvalue⟩ := h
  refine ⟨.minus :: ts, .unary .negate e, fun nesting last next rest hnext hrest => ?_,
    fun _ => .negate (hderives _), ?_⟩
  · exact .atom (a := .mark .minus) rfl (hreads nesting (some .minus) next rest hnext hrest)
  · intro env awaited m
    rw [eval, exec_bind, hvalue env false m]
    rfl

theorem Speaks.enclosed (h : Speaks cs value) : Speaks ('(' :: (cs ++ [')'])) value := by
  obtain ⟨ts, e, hreads, hderives, hvalue⟩ := h
  have hgroup : ∀ template, Derives template .ternary ts e := fun _ =>
    derives_loose (m := 0) (n := 8) (Nat.zero_le 8) (hderives _)
  refine ⟨.leftParen :: (ts ++ [.rightParen]), e, fun nesting last next rest hnext hrest => ?_,
    fun _ => .bare (.operandOnly (.group (hgroup _))), hvalue⟩
  have hclose : ∀ last, Reads (nesting + 1) last (')' :: next) (.rightParen :: rest) := fun _ =>
    Bracket.round.reads_closing (hrest _)
  simp only [List.cons_append, List.append_assoc, List.nil_append]
  refine Bracket.round.reads_opening (hreads _ _ _ _ (fun c hc => ?_) hclose)
  obtain rfl : ')' = c := Option.some.inj hc
  decide

/-! Strings. -/

def glyphs (c : Char) : List Glyph :=
  if c = '"' then [.escaped '"']
  else if c = '\\' then [.escaped '\\']
  else if c = '\x08' then [.escaped 'b']
  else if c = '\x0c' then [.escaped 'f']
  else if c = '\n' then [.escaped 'n']
  else if c = '\r' then [.escaped 'r']
  else if c = '\t' then [.escaped 't']
  else if c.toNat < 0x20 then
    [.escaped 'u', .plain '0', .plain '0', .plain (c.toNat / 16).digitChar, .plain (c.toNat % 16).digitChar]
  else [.plain c]

theorem inside_digit {n : Nat} (h : n < 16) : (Glyph.plain n.digitChar).Inside '"' :=
  (by decide : ∀ n < 16, n.digitChar ≠ '"' ∧ n.digitChar ≠ '\\' ∧ n.digitChar ≠ '\n') n h

theorem glyphs_spec (c : Char) : spell (glyphs c) = Text.Quoted.encodeChar c ∧
    (glyphs c).map Glyph.value = Value.misread c ∧ ∀ g ∈ glyphs c, g.Inside '"' := by
  by_cases hknown : c ∈ ['"', '\\', '\x08', '\x0c', '\n', '\r', '\t']
  · simp only [List.mem_cons, List.not_mem_nil, or_false] at hknown
    rcases hknown with rfl | rfl | rfl | rfl | rfl | rfl | rfl
    all_goals exact ⟨rfl, rfl, List.forall_mem_singleton.2 trivial⟩
  · simp only [List.mem_cons, List.not_mem_nil, or_false, not_or] at hknown
    obtain ⟨hquote, hbackslash, hback, hfeed, hline, hreturn, htab⟩ := hknown
    unfold glyphs Text.Quoted.encodeChar Value.misread
    simp only [hquote, hbackslash, hback, hfeed, hline, hreturn, htab, List.mem_cons, List.not_mem_nil, or_self,
      if_false, not_false_eq_true, and_true]
    split
    · refine ⟨rfl, rfl, ?_⟩
      simp only [List.forall_mem_cons, List.not_mem_nil, false_implies, implies_true, and_true]
      exact ⟨trivial, by simp [Glyph.Inside], by simp [Glyph.Inside], inside_digit (by omega), inside_digit (by omega)⟩
    · exact ⟨rfl, rfl, List.forall_mem_singleton.2 ⟨hquote, hbackslash, hline⟩⟩

theorem speaks_quote (s : String) :
    Speaks (Text.Quoted.quote s.toList)
      fun (_ : Setting σ) _ => .string (String.ofList (s.toList.flatMap Value.misread)) := by
  have hspell : Text.Quoted.encode s.toList = spell (s.toList.flatMap glyphs) := by
    rw [spell, List.flatMap_assoc]
    exact congrArg s.toList.flatMap (funext fun c => (glyphs_spec c).1.symm)
  have hvalue : (s.toList.flatMap glyphs).map Glyph.value =
      (String.ofList (s.toList.flatMap Value.misread)).toList := by
    rw [String.toList_ofList, List.map_flatMap]
    exact congrArg s.toList.flatMap (funext fun c => (glyphs_spec c).2.1)
  refine speaks_atom (t := .string _) rfl (fun nesting last next rest _ hrest => ?_) fun _ _ _ => rfl
  rw [Text.Quoted.quote, hspell]
  refine reads_quoted hvalue (fun g hg => ?_) hrest
  obtain ⟨c, _, hg⟩ := List.mem_flatMap.1 hg
  exact (glyphs_spec c).2.2 g hg

/-! Values. -/

/-- What a name stands for: a local, a variable or a constant. -/
def named (env : Setting σ) (m : Machine σ) (name : String) : Value :=
  ((m.locals[name]?.or (declared? env m name)).or (MathLibrary.constant? name)).getD .null

theorem exec_nameValue {name : String} (h : (MathLibrary.constant? name).isSome = true) (env : Setting σ)
    (m : Machine σ) :
    exec (nameValue env name) m = (.ok (named env m name), m) := by
  obtain ⟨v, hv⟩ := Option.isSome_iff_exists.1 h
  rw [nameValue, exec_get_bind, named]
  cases m.locals[name]? with
  | some w => rfl
  | none => cases declared? env m name with
    | some w => rfl
    | none => simp [hv]

theorem speaks_constant {name : String} (hname : Lexable name) (h : (MathLibrary.constant? name).isSome = true) :
    Speaks name.toList fun (env : Setting σ) m => named env m name :=
  speaks_word name (e := .identifier name) hname.1 (by rw [hname.2]; rfl) fun env _ m => exec_nameValue h env m

theorem speaks_infinite {n : Float} : Speaks (σ := σ) (if n < 0 then "(-Infinity)" else "Infinity").toList fun env m =>
    if n < 0 then (named env m "Infinity").unary .negate else named env m "Infinity" := by
  have hinfinity : Speaks "Infinity".toList fun (env : Setting σ) m => named env m "Infinity" :=
    speaks_constant ⟨⟨'I', _, rfl, by decide, by decide⟩, by decide⟩ rfl
  split
  · exact hinfinity.negated.enclosed
  · exact hinfinity

theorem speaks_finite {n : Float} (h : Value.RoundTrips n) : Speaks (Number.dataFile.writeShort n).toList
    fun (_ : Setting σ) _ => .number ((Number.read? (Number.dataFile.writeShort n).toList).getD n) := by
  obtain ⟨x, hx, _⟩ := h
  obtain ⟨sign, digits, htext, hsign, hdecimal⟩ := Number.decimal_writeShort hx
  rw [htext] at hx ⊢
  simp only [hx, Option.getD_some]
  rcases hsign with rfl | rfl
  · exact speaks_number hdecimal hx
  · obtain ⟨y, hy, rfl⟩ := Option.map_eq_some_iff.1 (show (Number.unsigned? digits).map (- ·) = some x from hx)
    rw [← Number.read?_digits hdecimal] at hy
    exact (speaks_number hdecimal hy).negated

mutual

theorem speaks_source : ∀ v : Value, v.Readable → Speaks v.sourceChars fun (env : Setting σ) m => v.reread (named env m)
  | .null, _ => speaks_word "null" ⟨'n', _, rfl, by decide, by decide⟩ rfl fun _ _ _ => rfl
  | .bool false, _ => speaks_word "false" ⟨'f', _, rfl, by decide, by decide⟩ rfl fun _ _ _ => rfl
  | .bool true, _ => speaks_word "true" ⟨'t', _, rfl, by decide, by decide⟩ rfl fun _ _ _ => rfl
  | .number n, h => by
    rw [Value.sourceChars]
    simp only [Value.reread]
    split
    · exact speaks_constant ⟨⟨'N', _, rfl, by decide, by decide⟩, by decide⟩ rfl
    · next hnan =>
      split
      · exact speaks_infinite
      · next hinf =>
        have hfinite := Number.isFinite_of_not hnan hinf
        rw [Value.toJson, if_pos hfinite, Json.compactChars]
        exact speaks_finite (h hfinite)
  | .string s, _ => speaks_quote s
  | .array items, h => by
    obtain ⟨pairs, _, hderives, hreads, hvalue⟩ := speaks_items items h
    refine ⟨.leftBracket :: ([Token.comma].intercalate (pairs.map Prod.fst) ++ [.rightBracket]),
    .array (pairs.map Prod.snd),
      fun nesting last next rest hnext hrest => ?_,
      fun _ => .bare (.operandOnly (.array (fun pair hpair => hderives pair hpair _) (.inl rfl))),
      fun env awaited m => ?_⟩
    · have hclose : ∀ last, Reads (nesting + 1) last (']' :: next) (.rightBracket :: rest) := fun _ =>
        Bracket.square.reads_closing (hrest _)
      rw [Value.sourceChars, Json.enclose]
      simp only [List.cons_append, List.append_assoc, List.nil_append]
      refine Bracket.square.reads_opening (hreads _ _ _ _ (fun c hc => ?_) hclose)
      obtain rfl : ']' = c := Option.some.inj hc
      decide
    · rw [eval, exec_bind, hvalue env m]
      rfl

theorem speaks_items : ∀ vs : List Value, Value.ReadableItems vs → ∃ pairs : List (List Token × Expr),
    pairs.length = vs.length ∧ (∀ pair ∈ pairs, ∀ template, Derives template .ternary pair.1 pair.2) ∧
    (∀ nesting last next rest, Apart next → (∀ last, Reads nesting last next rest) → Reads nesting last
      ([','].intercalate (Value.sourceItems vs) ++ next) ([Token.comma].intercalate (pairs.map Prod.fst) ++ rest)) ∧
    ∀ (env : Setting σ) m, exec (evalAll env (pairs.map Prod.snd)) m = (.ok (Value.rereadItems (named env m) vs), m)
  | [], _ => ⟨[], rfl, List.forall_mem_nil _, fun _ last _ _ _ hrest => hrest last, fun _ _ => rfl⟩
  | v :: vs, ⟨hv, hvs⟩ => by
    obtain ⟨ts, e, hread, hderive, hvalue⟩ := speaks_source v hv
    obtain ⟨pairs, hlength, hderives, hreads, hvalues⟩ := speaks_items vs hvs
    refine ⟨(ts, e) :: pairs, by rw [List.length_cons, hlength, List.length_cons],
      List.forall_mem_cons.2 ⟨fun _ => derives_phrase (hderive _), hderives⟩, ?_, fun env m => ?_⟩
    · intro nesting last next rest hnext hrest
      cases vs with
      | nil =>
        obtain rfl := List.eq_nil_of_length_eq_zero hlength
        simpa [Value.sourceItems] using hread nesting last next rest hnext hrest
      | cons v' vs =>
        obtain ⟨pair, pairs, rfl⟩ :=
          List.exists_cons_of_length_pos (l := pairs) (by rw [hlength, List.length_cons]; omega)
        rw [Value.sourceItems, Value.sourceItems, List.intercalate_cons_cons, List.map_cons, List.map_cons,
          List.intercalate_cons_cons, ← Value.sourceItems, ← List.map_cons]
        simp only [List.append_assoc, List.singleton_append]
        refine hread _ _ _ _ (fun c hc => ?_) fun last => .atom (a := .mark .comma) rfl (hreads _ _ _ _ hnext hrest)
        obtain rfl : ',' = c := Option.some.inj hc
        decide
    · rw [List.map_cons, evalAll, exec_bind, hvalue env false m]
      simp only [exec_bind, hvalues env m]
      rfl

end

theorem Speaks.parse (h : Speaks cs value) : ∃ e, Program.parse (String.ofList cs) = .ok [.expr e] ∧
    ∀ (env : Setting σ) awaited m, exec (eval env awaited e) m = (.ok (value env m), m) := by
  obtain ⟨ts, e, hreads, hderives, hvalue⟩ := h
  obtain ⟨placed, hplaced, htokens⟩ := hreads 0 none [] [.eof] (fun _ hc => nomatch hc) (fun _ => .nil) ⟨1, 1⟩
  obtain ⟨phrase, rest, rfl, hphrase, hend⟩ := List.map_eq_append_iff.1 htokens
  obtain ⟨⟨_, p⟩, rfl, rfl⟩ := List.map_eq_singleton_iff.1 hend
  rw [List.append_nil] at hplaced
  refine ⟨e, ?_, hvalue⟩
  rw [Program.parse, String.toList_ofList, tokenize, hplaced]
  exact (derives_phrase (hderives _)).program hphrase p

theorem exists_parse_source {v : Value} (hv : v.Readable) : ∃ program, Program.parse v.source = .ok program ∧
    ∀ (env : Setting σ) m, exec (run env .null program) m = (.ok (v.reread (named env m)), m) := by
  obtain ⟨e, hparse, hvalue⟩ := (speaks_source (σ := σ) v hv).parse
  refine ⟨[.expr e], hparse, fun env m => ?_⟩
  rw [run, exec_bind, hvalue env false m]
  rfl

/-! Placeholders. -/

theorem mem_of_matchElements {x : Char} {es : List Element} {m r : List Char} (hx : .char x ∈ es)
    (h : matchElements es cs = some (m, r)) : x ∈ m := by
  fun_induction matchElements es cs generalizing m r <;> grind [Option.map_eq_some_iff]

theorem sequenceFrom_of_not_mem (h : '(' ∉ cs) (names : List String) (spans : List Text.Span) (i : Nat)
    (before : List Char) : sequenceFrom (callPatterns names) spans i before cs = cs := by
  have hnone : ∀ before (cs : List Char) call, '(' ∉ cs → firstMatch (callPatterns names) before cs ≠ some call := by
    intro before cs call hcs hcall
    unfold firstMatch at hcall
    split at hcall
    · obtain ⟨p, hp, hmatch⟩ := List.exists_of_findSome?_eq_some hcall
      obtain ⟨name, _, rfl⟩ := mem_callPatterns.1 hp
      obtain ⟨⟨m, r⟩, hmatch, _⟩ := Option.map_eq_some_iff.1 hmatch
      rw [eq_of_matchElements hmatch] at hcs
      exact hcs (List.mem_append_left r (mem_of_matchElements (List.mem_append_right _ List.mem_cons_self) hmatch))
    · cases hcall
  fun_induction sequenceFrom (callPatterns names) spans i before cs with
  | case1 => rfl
  | case2 _ _ _ _ _ _ ih => rw [ih fun hmem => h (List.mem_cons_of_mem _ hmem)]
  | case3 | case4 | case5 => exact absurd ‹_› (hnone _ _ _ h)

theorem sequence_of_not_mem {text : String} (h : '(' ∉ text.toList) (set : IntegrationSet σ) (mode : Mode) :
    Await.sequence set mode text = text := by
  rw [Await.sequence, sequenceCalls, sequenceFrom_of_not_mem h, String.ofList_toList]

def placeholder (name : String) : List Char := '\x7b' :: (name.toList ++ ['\x7d'])

variable {lookup : String → Option Value} {name : String} {v : Value} {front back : List Char}

theorem splitBrace_name (h : ∀ c ∈ cs, c ∉ References.limits) (rest : List Char) :
    Text.splitBrace 1 (cs ++ '\x7d' :: rest) = some (cs, rest) := by
  induction cs with
  | nil => rfl
  | cons c cs ih =>
    obtain ⟨hc, hcs⟩ := List.forall_mem_cons.1 h
    have hbraces : c ≠ '\x7b' ∧ c ≠ '\x7d' := by
      constructor <;> rintro rfl <;> exact hc (by decide)
    rw [List.cons_append, Text.splitBrace, if_neg fun hclose => hbraces.2 hclose.1, Text.depthAfter, if_neg hbraces.1,
      if_neg hbraces.2, ih hcs]
    rfl

theorem after_of_not_limit {c : Char} (h : c ∉ References.limits) : Placeholder.Mode.after .source c .code = .code := by
  have hopens : Text.opens true c = false := by
    refine Bool.eq_false_iff.2 fun hopens => h ?_
    simp only [Text.opens, Bool.true_and, Bool.or_eq_true, beq_iff_eq] at hopens
    rcases hopens with (rfl | rfl) | rfl <;> decide
  rw [Placeholder.Mode.after, Text.Quoting.after, hopens]
  rfl

theorem afterAll_code (h : ∀ c ∈ cs, c ∉ References.limits) : Placeholder.Mode.afterAll .source cs .code = .code := by
  induction cs with
  | nil => rfl
  | cons c cs ih =>
    obtain ⟨hc, hcs⟩ := List.forall_mem_cons.1 h
    rw [Placeholder.Mode.afterAll, List.foldl_cons, after_of_not_limit hc]
    exact ih hcs

theorem expandFrom_front (h : ∀ c ∈ front, c ∉ References.limits) (cs : List Char) :
    Placeholder.expandFrom lookup .source .code (front ++ cs) =
      (Placeholder.expandFrom lookup .source .code cs).map (front ++ ·) := by
  induction front with
  | nil =>
    rw [List.nil_append]
    cases Placeholder.expandFrom lookup .source .code cs <;> rfl
  | cons c front ih =>
    obtain ⟨hc, hfront⟩ := List.forall_mem_cons.1 h
    have hbrace : c ≠ '\x7b' := by
      rintro rfl
      exact hc (by decide)
    rw [List.cons_append, Placeholder.expandFrom_plain fun h => hbrace h.1, after_of_not_limit hc, ih hfront]
    cases Placeholder.expandFrom lookup .source .code cs <;> rfl

theorem reference?_name (hname : Text.isVariableName name.toList = true) :
    Placeholder.reference? name.toList = some ⟨name, none⟩ := by
  have hpart := Text.isVariablePart_of_isVariableName hname
  have htrim : Text.trimStart name.toList = name.toList := by
    cases hchars : name.toList with
    | nil => rfl
    | cons c rest =>
      have hblank : ¬Text.isBlank c = true := by
        intro hblank
        have hc := hpart c (hchars ▸ List.mem_cons_self)
        rw [Text.not_isVariablePart_of_isBlank hblank] at hc
        exact Bool.false_ne_true hc
      simp [Text.trimStart, hblank]
  have hskip : Placeholder.skipThis name.toList = name.toList := by
    unfold Placeholder.skipThis
    split
    · rfl
    · next rest hrest =>
      split
      · next tail htail =>
        have hdot : '.' ∈ Text.trimStart rest := htail ▸ List.mem_cons_self
        have hdot : '.' ∈ rest := (List.dropWhile_suffix Text.isBlank).subset hdot
        rw [Placeholder.eq_of_after? hrest] at hpart
        exact absurd (hpart '.' (List.mem_append_right _ hdot)) (by decide)
      · rfl
  have hstop : ([] : List Char).head?.any Text.isVariablePart = false := rfl
  obtain ⟨htake, hdrop⟩ := takeWhile_append_of_stop hpart hstop
  rw [List.append_nil] at htake hdrop
  simp only [Placeholder.reference?, htrim, hskip, htake, hdrop, hname, if_true, String.ofList_toList]
  rfl

theorem expandFrom_of_not_limit (h : ∀ c ∈ cs, c ∉ References.limits) :
    Placeholder.expandFrom lookup .source .code cs = .ok cs := by
  have hcopy : Placeholder.expandFrom lookup _ _ _ = _ := expandFrom_front h []
  rw [List.append_nil, Placeholder.expandFrom] at hcopy
  rw [hcopy]
  exact congrArg Except.ok (List.append_nil cs)

theorem expandFrom_placeholder (hname : Text.isVariableName name.toList = true) (hv : lookup name = some v)
    (back : List Char) : Placeholder.expandFrom lookup .source .code (placeholder name ++ back) =
      (Placeholder.expandFrom lookup .source .code back).map (v.sourceChars ++ ·) := by
  have hlimits : ∀ c ∈ name.toList, c ∉ References.limits := fun c hc =>
    References.not_mem_limits_of_isNamePart
      (Text.isNamePart_of_isVariablePart (Text.isVariablePart_of_isVariableName hname c hc))
  have hafter : Placeholder.Mode.afterAll .source (name.toList ++ ['\x7d']) .code = .code := by
    rw [Placeholder.Mode.afterAll, List.foldl_append]
    exact congrArg (Placeholder.Mode.after .source '\x7d') (afterAll_code hlimits)
  have hvalue : Placeholder.replacement lookup .source name.toList = .ok v.sourceChars := by
    rw [Placeholder.replacement, reference?_name hname]
    simp only [Placeholder.value, hv]
    exact congrArg Except.ok String.toList_ofList
  rw [placeholder, List.cons_append, List.append_assoc, List.singleton_append,
    Placeholder.expandFrom_brace (splitBrace_name hlimits back), expandFrom_of_not_limit hlimits]
  change (Placeholder.replacement lookup .source name.toList >>= _) = _
  rw [hvalue, hafter]
  cases Placeholder.expandFrom lookup .source .code back <;> rfl

theorem expand_placeholder (hname : Text.isVariableName name.toList = true) (hv : lookup name = some v)
    (hfront : ∀ c ∈ front, c ∉ References.limits) (hback : ∀ c ∈ back, c ∉ References.limits) :
    Placeholder.expand lookup .source (String.ofList (front ++ (placeholder name ++ back))) =
      .ok (String.ofList (front ++ (v.sourceChars ++ back))) := by
  rw [Placeholder.expand, String.toList_ofList, expandFrom_front hfront, expandFrom_placeholder hname hv,
    expandFrom_of_not_limit hback]
  rfl

theorem exec_evaluate_placeholder (hv : v.Readable) (hname : Text.isVariableName name.toList = true) (mode : Mode)
    {env : Setting σ} {m : Machine σ} (hvalue : declared? env m name = some v) :
    exec (evaluate env mode (String.ofList (placeholder name))) m = (.ok (v.reread (named env m)),
      { m with world := (m.world.sequence mode (String.ofList (placeholder name))).2 }) := by
  have hparen : '(' ∉ (String.ofList (placeholder name)).toList := by
    rw [String.toList_ofList, placeholder]
    intro hmem
    rcases List.mem_cons.1 hmem with heq | hmem
    · exact absurd heq (by decide)
    · rcases List.mem_append.1 hmem with hmem | hmem
      · exact absurd (Text.isVariablePart_of_isVariableName hname '(' hmem) (by decide)
      · exact absurd (List.mem_singleton.1 hmem) (by decide)
  have hknown : known env.declared m.values name = some v := hvalue
  have hnone : ∀ c ∈ ([] : List Char), c ∉ References.limits := List.forall_mem_nil _
  have hexpand := expand_placeholder hname hknown hnone hnone
  simp only [List.append_nil, List.nil_append] at hexpand
  obtain ⟨program, hparse, hrun⟩ := exists_parse_source (σ := σ) hv
  rw [exec_evaluate, sequence_fst, sequence_of_not_mem hparen, hexpand]
  simp only [exec_bind, exec_mk_pure, show Program.parse (String.ofList v.sourceChars) = .ok program from hparse]
  exact hrun env _

/-! The value that comes back. -/

theorem misread_plain {c : Char} (h : c.toNat < 0x20 → c ∈ ['\n', '\r', '\t']) : Value.misread c = [c] := by
  have hback : c ≠ '\x08' := by
    rintro rfl
    exact absurd (h (by decide)) (by decide)
  have hfeed : c ≠ '\x0c' := by
    rintro rfl
    exact absurd (h (by decide)) (by decide)
  rw [Value.misread, if_neg hback, if_neg hfeed, if_neg fun hlow => hlow.2 (h hlow.1)]

theorem flatMap_misread (h : ∀ c ∈ cs, c.toNat < 0x20 → c ∈ ['\n', '\r', '\t']) : cs.flatMap Value.misread = cs := by
  induction cs with
  | nil => rfl
  | cons c cs ih =>
    obtain ⟨hc, hcs⟩ := List.forall_mem_cons.1 h
    rw [List.flatMap_cons, misread_plain hc, ih hcs]
    rfl

mutual

theorem agrees_reread {word : String → Value} {shadowed : String → Bool}
    (hword : ∀ name ∈ ["NaN", "Infinity"], shadowed name = false → some (word name) = MathLibrary.constant? name) :
    ∀ v : Value, v.Readable → v.Plain shadowed → (v.reread word).agrees v = true
  | .null, _, _ => rfl
  | .bool b, _, _ => beq_self_eq_true b
  | .number n, hv, ⟨hnan, hinf⟩ => by
    rw [Value.reread]
    split
    · next h =>
      have heq : word "NaN" = .number Number.nan := Option.some.inj (hword "NaN" (by simp) (hnan h))
      have hself : Number.nan.isNaN = true := by decide
      rw [heq, Value.agrees, hself, h]
      exact Bool.or_true _
    · next hn =>
      split
      · next h =>
        have heq : word "Infinity" = .number Number.infinity := Option.some.inj (hword "Infinity" (by simp) (hinf h))
        have hsign := Number.beq_infinity h
        rw [heq]
        split at hsign
        · next hneg => simpa [hneg, Value.agrees, Value.unary, Value.toNumber] using .inl hsign
        · next hneg => simpa [hneg, Value.agrees] using .inl hsign
      · next h =>
        obtain ⟨x, hx, hbeq⟩ := hv (Number.isFinite_of_not hn h)
        simp [hx, Value.agrees, hbeq]
  | .string s, _, hplain => by
    have hsame := flatMap_misread hplain
    simp [Value.reread, Value.agrees, hsame]
  | .array items, hv, hplain => agrees_rereadItems hword items hv hplain

theorem agrees_rereadItems {word : String → Value} {shadowed : String → Bool}
    (hword : ∀ name ∈ ["NaN", "Infinity"], shadowed name = false → some (word name) = MathLibrary.constant? name) :
    ∀ vs : List Value, Value.ReadableItems vs → Value.PlainItems shadowed vs →
      Value.agreesItems (Value.rereadItems word vs) vs = true
  | [], _, _ => rfl
  | v :: vs, ⟨hv, hvs⟩, ⟨hplain, hplains⟩ => by
    rw [Value.rereadItems, Value.agreesItems, agrees_reread hword v hv hplain, agrees_rereadItems hword vs hvs hplains]
    rfl

end

theorem named_of_unshadowed {env : Setting σ} {m : Machine σ} {name : String} (h : isShadowed env m name = false)
    (hconstant : (MathLibrary.constant? name).isSome = true) :
    some (named env m name) = MathLibrary.constant? name := by
  obtain ⟨v, hv⟩ := Option.isSome_iff_exists.1 hconstant
  rw [isShadowed, Bool.or_eq_false_iff] at h
  have hlocal : m.locals[name]? = none := Std.ExtTreeMap.getElem?_eq_none_of_contains_eq_false h.1
  have hvariable : declared? env m name = none := Option.isSome_eq_false_iff.1 h.2 |> Option.isNone_iff_eq_none.1
  rw [named, hlocal, hvariable, hv]
  rfl

/-- The source text of a value is a script that evaluates to the value as the lexer reads it and as the names in it
say, and changes nothing; so is a placeholder for a variable of that value. Within an expression the placeholder becomes
that text, which is an operand with that value. It is the value itself if it has no control characters that the lexer
does not know, and if no local or variable has the name of a constant that it needs. -/
theorem evaluate_source (v : Value) (hv : v.Readable) (env : Setting σ) (m : Machine σ) :
    (∃ program, Program.parse v.source = .ok program ∧
      exec (run env .null program) m = (.ok (v.reread (named env m)), m)) ∧
    (∀ name, Text.isVariableName name.toList = true → declared? env m name = some v →
      (∀ mode, exec (evaluate env mode (String.ofList (placeholder name))) m = (.ok (v.reread (named env m)),
        { m with world := (m.world.sequence mode (String.ofList (placeholder name))).2 })) ∧
      ∀ front back, (∀ c ∈ front ++ back, c ∉ References.limits) →
        Placeholder.expand (declared? env m) .source (String.ofList (front ++ (placeholder name ++ back))) =
          .ok (String.ofList (front ++ (v.sourceChars ++ back)))) ∧
    Speaks v.sourceChars (fun (env : Setting σ) m => v.reread (named env m)) ∧
    (v.Plain (isShadowed env m) → (v.reread (named env m)).agrees v = true) := by
  refine ⟨?_,
    fun name hname hvalue => ⟨fun mode => exec_evaluate_placeholder hv hname mode hvalue, fun front back h => ?_⟩,
    speaks_source v hv, agrees_reread (fun name hname h => named_of_unshadowed h ?_) v hv⟩
  · obtain ⟨program, hparse, hrun⟩ := exists_parse_source hv
    exact ⟨program, hparse, hrun env m⟩
  · obtain ⟨hfront, hback⟩ := List.forall_mem_append.1 h
    exact expand_placeholder hname hvalue hfront hback
  · simp only [List.mem_cons, List.not_mem_nil, or_false] at hname
    rcases hname with rfl | rfl <;> rfl

def holding (v : Value) : Machine Unit := ⟨.start () .none, (∅ : NameMap Value).insert "x" v, ∅, none⟩

theorem declared?_holding (v : Value) (name : String) :
    declared? ⟨.empty, ∅⟩ (holding v) name = if name = "x" then some v else none := by
  have hvalues : (holding v).values[name]? = if "x" = name then some v else none := NameMap.get?_insert ∅ "x" name v
  rw [declared?, hvalues]
  by_cases h : name = "x"
  · rw [if_pos h.symm, if_pos h]
  · rw [if_neg (Ne.symm h), if_neg h]
    rfl

def mixture : Value :=
  .array [.number 2.5, .number Number.nan, .array [.number (-Number.infinity), .string "a \"b\"\n"], .null]

theorem evaluate_source_mixture : mixture.Readable ∧ Text.isVariableName "x".toList = true ∧
    declared? ⟨.empty, ∅⟩ (holding mixture) "x" = some mixture ∧
    mixture.Plain (isShadowed ⟨.empty, ∅⟩ (holding mixture)) ∧
    ∃ w, (exec (evaluate ⟨.empty, ∅⟩ .expression "\x7bx\x7d") (holding mixture)).1 = .ok w ∧
      w.agrees mixture = true := by
  have hreadable : mixture.Readable := by
    have hhalf : Value.RoundTrips 2.5 := ⟨2.5, by decide +kernel, by decide +kernel⟩
    have hnan : ¬Number.nan.isFinite = true := by decide +kernel
    have hinfinity : ¬(-Number.infinity).isFinite = true := by decide +kernel
    exact ⟨fun _ => hhalf, fun h => absurd h hnan, ⟨fun h => absurd h hinfinity, trivial, trivial⟩, trivial, trivial⟩
  have hshadowed : ∀ name, name ≠ "x" → isShadowed ⟨.empty, ∅⟩ (holding mixture) name = false := by
    intro name hne
    rw [isShadowed, declared?_holding, if_neg hne]
    rfl
  have hplain : mixture.Plain (isShadowed ⟨.empty, ∅⟩ (holding mixture)) := by
    have hnumber : ∀ n : Float, (Value.number n).Plain (isShadowed ⟨.empty, ∅⟩ (holding mixture)) := fun n =>
      ⟨fun _ => hshadowed "NaN" (by decide), fun _ => hshadowed "Infinity" (by decide)⟩
    have htext : ∀ c ∈ "a \"b\"\n".toList, c.toNat < 0x20 → c ∈ ['\n', '\r', '\t'] := by decide
    exact ⟨hnumber _, hnumber _, ⟨hnumber _, htext, trivial⟩, trivial, trivial⟩
  have hx : declared? ⟨.empty, ∅⟩ (holding mixture) "x" = some mixture := declared?_holding mixture "x"
  obtain ⟨_, hplaceholder, _, hagrees⟩ := evaluate_source mixture hreadable ⟨.empty, ∅⟩ (holding mixture)
  have hvalue := (hplaceholder "x" (by decide) hx).1 .expression
  exact ⟨hreadable, by decide, hx, hplain, _, congrArg Prod.fst hvalue, hagrees hplain⟩

/-- A backspace is written as an escape that the lexer takes for the letter. -/
theorem evaluate_source_backspace : ∃ w,
    (exec (evaluate ⟨.empty, ∅⟩ .expression "\x7bx\x7d") (holding (.string "\x08"))).1 = .ok w ∧
    w.agrees (.string "\x08") = false ∧ w.agrees (.string "b") = true := by
  have hreadable : Value.Readable (.string "\x08") := trivial
  have hname : Text.isVariableName "x".toList = true := by decide
  have hvalue := exec_evaluate_placeholder hreadable hname .expression (declared?_holding (.string "\x08") "x")
  exact ⟨_, congrArg Prod.fst hvalue, by decide, by decide⟩

end Eval
end LiveSheet
