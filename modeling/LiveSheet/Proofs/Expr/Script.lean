import LiveSheet.Proofs.Expr.Grammar
import LiveSheet.Proofs.Expr.Interpolation

/-! The grammar of scripts: statements, each of which is followed by a separator unless it is the last. A script is read
exactly where its tokens have this form, and two scripts with a separator between them are one. -/

namespace LiveSheet.Parser

def isSeparator (t : Token) : Prop := t = .newline ∨ t = .semicolon

inductive States (template : String → Except SheetError (List (Part Expr))) : List Token → Statement → Prop
  | expr {us : List Token} {e : Expr} : Derives template .ternary us e → States template us (.expr e)
  | bind {us : List Token} {e : Expr} (name : String) : Derives template .ternary us e →
      States template (.letWord :: .identifier name :: .assign :: us) (.bind name e)

inductive Scripted (template : String → Except SheetError (List (Part Expr))) : List Token → Program → Prop
  | nil : Scripted template [] []
  | separator {t : Token} {us : List Token} {ps : Program} : isSeparator t → Scripted template us ps →
      Scripted template (t :: us) ps
  | statement {us vs : List Token} {s : Statement} {ps : Program} : States template us s →
      (∀ t ∈ vs.head?, isSeparator t) → Scripted template vs ps → Scripted template (us ++ vs) (s :: ps)

variable {template template' : String → Except SheetError (List (Part Expr))} {us vs : List Token} {ts r : Tokens}
  {e : Expr} {s : Statement} {ps qs : Program}

/-! ## Phrases -/

theorem Derives.ends {stratum : Stratum} (h : Derives template stratum us e) :
    ∃ us' t, us = us' ++ [t] ∧ ¬endsStatement t := by
  induction h with
  | simple _ ih | operand _ _ ih | tight _ ih | bare _ ih | operandOnly _ ih => exact ih
  | @choice cs as bs _ _ _ i j k _ _ _ _ _ ih =>
    obtain ⟨us', t, rfl, ht⟩ := ih
    exact ⟨cs ++ .question :: (newlines i ++ (as ++ (newlines j ++ .colon :: (newlines k ++ us')))), t, by simp, ht⟩
  | @join _ ls _ _ _ t _ i _ _ _ _ ih =>
    obtain ⟨us', t', rfl, ht⟩ := ih
    exact ⟨ls ++ t :: (newlines i ++ us'), t', by simp, ht⟩
  | await _ ih | negate _ ih | plus _ ih | not _ ih =>
    obtain ⟨us', t, rfl, ht⟩ := ih
    exact ⟨_ :: us', t, rfl, ht⟩
  | @call fs as => exact ⟨fs ++ .leftParen :: as, .rightParen, by simp, by simp [endsStatement]⟩
  | @member os _ name => exact ⟨os ++ [.dot], .identifier name, by simp, by simp [endsStatement]⟩
  | @index os is => exact ⟨os ++ .leftBracket :: is, .rightBracket, by simp, by simp [endsStatement]⟩
  | @group ts => exact ⟨.leftParen :: ts, .rightParen, by simp, by simp [endsStatement]⟩
  | @array ts => exact ⟨.leftBracket :: ts, .rightBracket, by simp, by simp [endsStatement]⟩
  | _ => exact ⟨[], _, rfl, by simp [endsStatement]⟩

/-- The brackets that the tokens open are closed by them. -/
def Balanced (us : List Token) : Prop := ∀ nesting, us.foldl Token.nestingAfter nesting = nesting

theorem Balanced.nil : Balanced [] := fun _ => rfl

theorem Balanced.append (h : Balanced us) (h' : Balanced vs) : Balanced (us ++ vs) := by
  intro nesting
  rw [List.foldl_append, h, h']

theorem Balanced.cons {t : Token} (ht : ∀ nesting, Token.nestingAfter nesting t = nesting) (h : Balanced us) :
    Balanced (t :: us) := by
  intro nesting
  rw [List.foldl_cons, ht, h]

theorem Balanced.enclose {opening closing : Token} (hopening : ∀ nesting, Token.nestingAfter nesting opening = nesting + 1)
    (hclosing : ∀ nesting, Token.nestingAfter (nesting + 1) closing = nesting) (h : Balanced us) :
    Balanced (opening :: (us ++ [closing])) := by
  intro nesting
  rw [List.foldl_cons, List.foldl_append, hopening, h, List.foldl_cons, hclosing, List.foldl_nil]

theorem balanced_newlines (i : Nat) : Balanced (newlines i) := by
  induction i with
  | zero => exact .nil
  | succ i ih => exact .cons (fun _ => rfl) ih

theorem Listed.balanced {items : List (List Token)} (h : Listed items us) (hitems : ∀ item ∈ items, Balanced item) :
    Balanced us := by
  have hall : Balanced ([Token.comma].intercalate items) := by
    clear h
    induction items with
    | nil => exact .nil
    | cons item items ih =>
      obtain ⟨hitem, hitems⟩ := List.forall_mem_cons.1 hitems
      cases items with
      | nil => simpa using hitem
      | cons item' items =>
        rw [List.intercalate_cons_cons, List.append_assoc]
        exact hitem.append (.cons (fun _ => rfl) (ih hitems))
  rcases h with rfl | ⟨_, rfl⟩
  · exact hall
  · exact hall.append (.cons (fun _ => rfl) .nil)

theorem Derives.balanced {stratum : Stratum} (h : Derives template stratum us e) : Balanced us := by
  induction h with
  | simple _ ih | operand _ _ ih | tight _ ih | bare _ ih | operandOnly _ ih => exact ih
  | choice i j k _ _ _ ihc iha ihb =>
    exact ihc.append (.cons (fun _ => rfl) ((balanced_newlines i).append (iha.append ((balanced_newlines j).append
      (.cons (fun _ => rfl) ((balanced_newlines k).append ihb))))))
  | join i hop _ _ ihl ihr =>
    exact ihl.append (.cons (fun _ => by cases hop <;> rfl) ((balanced_newlines i).append ihr))
  | await _ ih | negate _ ih | plus _ ih | not _ ih => exact .cons (fun _ => rfl) ih
  | call _ _ hlisted ihf ihargs =>
    exact ihf.append (.enclose (fun _ => rfl) (fun _ => rfl) (hlisted.balanced (List.forall_mem_map.2 ihargs)))
  | member _ ih => exact ih.append (.cons (fun _ => rfl) (.cons (fun _ => rfl) .nil))
  | index _ _ iho ihi => exact iho.append (.enclose (fun _ => rfl) (fun _ => rfl) ihi)
  | group _ ih => exact .enclose (fun _ => rfl) (fun _ => rfl) ih
  | array _ hlisted ihitems =>
    exact .enclose (fun _ => rfl) (fun _ => rfl) (hlisted.balanced (List.forall_mem_map.2 ihitems))
  | _ => exact .cons (fun _ => rfl) .nil

/-- The second way of splitting templates answers where the first does, and in the same way. -/
def Extends (template template' : String → Except SheetError (List (Part Expr))) : Prop :=
  ∀ raw parts, template raw = .ok parts → template' raw = .ok parts

theorem Listed.mem {items : List (List Token)} (h : Listed items us) {item : List Token} (hitem : item ∈ items)
    {t : Token} (ht : t ∈ item) : t ∈ us := by
  have hall : t ∈ [Token.comma].intercalate items := by
    clear h
    induction items with
    | nil => cases hitem
    | cons item' items ih =>
      cases items with
      | nil => simpa [List.mem_singleton.1 hitem] using ht
      | cons item'' items =>
        rw [List.intercalate_cons_cons]
        rcases List.mem_cons.1 hitem with rfl | hitem
        · exact List.mem_append_left _ (List.mem_append_left _ ht)
        · exact List.mem_append_right _ (ih hitem)
  rcases h with rfl | ⟨_, rfl⟩
  · exact hall
  · exact List.mem_append_left _ hall

theorem Derives.mono_of_mem {stratum : Stratum} (h : Derives template stratum us e)
    (hextends : ∀ raw parts, .template raw ∈ us → template raw = .ok parts → template' raw = .ok parts) :
    Derives template' stratum us e := by
  have hitems : ∀ {items : List (List Token × Expr)} {as us : List Token}, Listed (items.map Prod.fst) as →
      (∀ t ∈ as, t ∈ us) →
      (∀ raw parts, .template raw ∈ us → template raw = .ok parts → template' raw = .ok parts) →
      (∀ item ∈ items, (∀ raw parts, .template raw ∈ item.1 → template raw = .ok parts → template' raw = .ok parts) →
        Derives template' .ternary item.1 item.2) → ∀ item ∈ items, Derives template' .ternary item.1 item.2 :=
    fun hlisted hus hextends ih item hitem => ih item hitem fun raw parts hmem =>
      hextends raw parts (hus _ (hlisted.mem (List.mem_map_of_mem hitem) hmem))
  induction h with
  | simple _ ih => exact .simple (ih hextends)
  | choice i j k _ _ _ ihc iha ihb =>
    exact .choice i j k (ihc fun raw parts hmem => hextends raw parts (by simp [hmem]))
      (iha fun raw parts hmem => hextends raw parts (by simp [hmem]))
      (ihb fun raw parts hmem => hextends raw parts (by simp [hmem]))
  | operand hlevel _ ih => exact .operand hlevel (ih hextends)
  | join i hop _ _ ihl ihr =>
    exact .join i hop (ihl fun raw parts hmem => hextends raw parts (by simp [hmem]))
      (ihr fun raw parts hmem => hextends raw parts (by simp [hmem]))
  | tight _ ih => exact .tight (ih hextends)
  | await _ ih => exact .await (ih fun raw parts hmem => hextends raw parts (List.mem_cons_of_mem _ hmem))
  | negate _ ih => exact .negate (ih fun raw parts hmem => hextends raw parts (List.mem_cons_of_mem _ hmem))
  | plus _ ih => exact .plus (ih fun raw parts hmem => hextends raw parts (List.mem_cons_of_mem _ hmem))
  | not _ ih => exact .not (ih fun raw parts hmem => hextends raw parts (List.mem_cons_of_mem _ hmem))
  | bare _ ih => exact .bare (ih hextends)
  | call _ _ hlisted ihf ihargs =>
    exact .call (ihf fun raw parts hmem => hextends raw parts (by simp [hmem]))
      (hitems hlisted (fun t ht => by simp [ht]) hextends ihargs) hlisted
  | member _ ih => exact .member (ih fun raw parts hmem => hextends raw parts (by simp [hmem]))
  | index _ _ iho ihi =>
    exact .index (iho fun raw parts hmem => hextends raw parts (by simp [hmem]))
      (ihi fun raw parts hmem => hextends raw parts (by simp [hmem]))
  | operandOnly _ ih => exact .operandOnly (ih hextends)
  | number x => exact .number x
  | string x => exact .string x
  | true => exact .true
  | false => exact .false
  | null => exact .null
  | this => exact .this
  | identifier name => exact .identifier name
  | template h => exact .template (hextends _ _ List.mem_cons_self h)
  | group _ ih => exact .group (ih fun raw parts hmem => hextends raw parts (by simp [hmem]))
  | array _ hlisted ihitems => exact .array (hitems hlisted (fun t ht => by simp [ht]) hextends ihitems) hlisted

theorem only_mono_of_mem (h : only template ts = .ok e)
    (hextends : ∀ raw parts, .template raw ∈ ts.map (·.token) → template raw = .ok parts → template' raw = .ok parts) :
    only template' ts = .ok e := by
  obtain ⟨r, p, r', he, hr⟩ := only_eq_ok.1 h
  obtain ⟨us, rfl, hus⟩ := (sound template _).ternary he
  obtain ⟨gap, i, hgap, hi⟩ := skipNewlines_eq r
  rw [hgap, hr]
  exact (hus.mono_of_mem fun raw parts hmem => hextends raw parts (by simp [hmem])).only rfl hi p r'

theorem only_mono (hextends : Extends template template') (h : only template ts = .ok e) : only template' ts = .ok e :=
  only_mono_of_mem h fun raw parts _ => hextends raw parts

theorem parts_mono {parse parse' : List Char → Except SheetError Expr} {raw : String} {parts : List (Part Expr)}
    (h : Template.parts parse raw = .ok parts)
    (hcode : ∀ body e, .code (.ok body) ∈ Template.pieces 0 1 0 raw.toList → parse body = .ok e → parse' body = .ok e) :
    Template.parts parse' raw = .ok parts := by
  rw [Template.parts_eq] at h ⊢
  generalize Template.pieces 0 1 0 raw.toList = pieces at h hcode ⊢
  induction pieces generalizing parts with
  | nil => exact h
  | cons piece pieces ih =>
    rw [List.mapM_cons] at h ⊢
    obtain ⟨part, hpart, h⟩ := bind_eq_ok.1 h
    obtain ⟨rest, hrest, h⟩ := bind_eq_ok.1 h
    have hpart' : Template.readPiece parse' piece = .ok part := by
      rcases piece with cs | body
      · exact hpart
      · obtain ⟨cs, rfl, hpart⟩ := bind_eq_ok.1 hpart
        obtain ⟨e, he, rfl⟩ := map_eq_ok.1 hpart
        exact map_eq_ok.2 ⟨e, hcode cs e List.mem_cons_self he, rfl⟩
    exact bind_eq_ok.2 ⟨part, hpart', bind_eq_ok.2
      ⟨rest, ih hrest fun body e hmem => hcode body e (List.mem_cons_of_mem _ hmem), h⟩⟩

theorem extends_parts {parse parse' : List Char → Except SheetError Expr}
    (h : ∀ cs e, parse cs = .ok e → parse' cs = .ok e) : Extends (Template.parts parse) (Template.parts parse') :=
  fun _ _ hparts => parts_mono hparts fun body e _ => h body e

theorem expressionOf_mono {depth depth' : Nat} (hle : depth ≤ depth') {cs : List Char}
    (h : expressionOf depth cs = .ok e) : expressionOf depth' cs = .ok e := by
  induction depth generalizing depth' cs e with
  | zero => cases h
  | succ depth ih =>
    obtain ⟨depth', rfl⟩ := Nat.exists_eq_add_of_le' (Nat.le_trans (Nat.le_add_left 1 depth) hle)
    rw [expressionOf] at h ⊢
    obtain ⟨ts, hts, h⟩ := bind_eq_ok.1 h
    exact bind_eq_ok.2 ⟨ts, hts, only_mono (extends_parts fun cs e => ih (Nat.le_of_succ_le_succ hle)) h⟩

/-! ## Statements -/

theorem isEnd_of_endsStatement {t : Token} (h : endsStatement t) : isEnd t := by
  rcases h with rfl | rfl | rfl <;> simp [isEnd]

theorem isSeparator.endsStatement {t : Token} (h : isSeparator t) : endsStatement t := .inr h

theorem States.begins (h : States template us s) : ∃ t us', us = t :: us' ∧ ¬endsStatement t := by
  cases h with
  | expr h =>
    obtain ⟨t, us', rfl, ht, _⟩ := h.begins
    refine ⟨t, us', rfl, ?_⟩
    rintro (rfl | rfl | rfl) <;> exact ht (by simp [isOutside])
  | bind name h => exact ⟨_, _, rfl, by simp [Parser.endsStatement]⟩

theorem States.ends (h : States template us s) : ∃ us' t, us = us' ++ [t] ∧ ¬endsStatement t := by
  cases h with
  | expr h => exact h.ends
  | bind name h =>
    obtain ⟨us', t, rfl, ht⟩ := h.ends
    exact ⟨.letWord :: .identifier name :: .assign :: us', t, rfl, ht⟩

theorem States.balanced (h : States template us s) : Balanced us := by
  cases h with
  | expr h => exact h.balanced
  | bind name h => exact .cons (fun _ => rfl) (.cons (fun _ => rfl) (.cons (fun _ => rfl) h.balanced))

theorem States.mono_of_mem (h : States template us s)
    (hextends : ∀ raw parts, .template raw ∈ us → template raw = .ok parts → template' raw = .ok parts) :
    States template' us s := by
  cases h with
  | expr h => exact .expr (h.mono_of_mem hextends)
  | bind name h => exact .bind name (h.mono_of_mem fun raw parts hmem => hextends raw parts (by simp [hmem]))

theorem statement_states (h : statement template ts = .ok (s, r)) :
    ∃ us : Tokens, ts = us ++ r ∧ States template (us.map (·.token)) s := by
  unfold statement at h
  split at h
  · next p rest =>
    obtain ⟨⟨name, ts₁⟩, hname, h⟩ := bind_eq_ok.1 h
    obtain ⟨ts₂, hassign, h⟩ := bind_eq_ok.1 h
    obtain ⟨⟨e, ts₃⟩, he, h⟩ := bind_eq_ok.1 h
    cases h
    obtain ⟨q, rfl⟩ := nameAfter_eq_ok.1 hname
    obtain ⟨q', rfl⟩ := expect_eq_ok.1 hassign
    obtain ⟨us, rfl, hus⟩ := (sound template _).ternary he
    exact ⟨⟨.letWord, p⟩ :: ⟨.identifier name, q⟩ :: ⟨.assign, q'⟩ :: us, rfl, .bind name hus⟩
  · obtain ⟨⟨e, r⟩, he, h⟩ := map_eq_ok.1 h
    cases h
    obtain ⟨us, rfl, hus⟩ := (sound template _).ternary he
    exact ⟨us, rfl, .expr hus⟩

theorem States.statement (h : States template us s) (hts : ts.map (·.token) = us) (hended : Ended r) :
    statement template (ts ++ r) = .ok (s, r) := by
  cases h with
  | expr h =>
    obtain ⟨t, us', hus, ht, _⟩ := h.begins
    obtain ⟨⟨t, p⟩, ts', rfl, rfl, _⟩ := List.map_eq_cons_iff.1 (hts.trans hus)
    unfold Parser.statement
    split
    · next heq =>
      cases heq
      exact absurd (by simp [isOutside]) ht
    · rw [h.expression hts hended]
      rfl
  | @bind us e name h =>
    obtain ⟨⟨_, p⟩, ts, rfl, rfl, hts₁⟩ := List.map_eq_cons_iff.1 hts
    obtain ⟨⟨_, q⟩, ts, rfl, rfl, hts₂⟩ := List.map_eq_cons_iff.1 hts₁
    obtain ⟨⟨_, q'⟩, ts, rfl, rfl, hts₃⟩ := List.map_eq_cons_iff.1 hts₂
    unfold Parser.statement
    simp only [List.cons_append]
    refine bind_eq_ok.2 ⟨(name, _), nameAfter_eq_ok.2 ⟨q, rfl⟩, bind_eq_ok.2 ⟨_, expect_eq_ok.2 ⟨q', rfl⟩,
      bind_eq_ok.2 ⟨(e, r), h.expression hts₃ hended, rfl⟩⟩⟩

/-! ## Scripts -/

namespace Scripted

theorem balanced (h : Scripted template us ps) : Balanced us := by
  induction h with
  | nil => exact .nil
  | separator ht _ ih => exact .cons (fun _ => by rcases ht with rfl | rfl <;> rfl) ih
  | statement hs _ _ ih => exact hs.balanced.append ih

theorem mono_of_mem (h : Scripted template us ps)
    (hextends : ∀ raw parts, .template raw ∈ us → template raw = .ok parts → template' raw = .ok parts) :
    Scripted template' us ps := by
  induction h with
  | nil => exact .nil
  | separator ht _ ih => exact .separator ht (ih fun raw parts hmem => hextends raw parts (List.mem_cons_of_mem _ hmem))
  | statement hs hnext _ ih =>
    exact .statement (hs.mono_of_mem fun raw parts hmem => hextends raw parts (List.mem_append_left _ hmem)) hnext
      (ih fun raw parts hmem => hextends raw parts (List.mem_append_right _ hmem))

theorem mono (hextends : Extends template template') (h : Scripted template us ps) : Scripted template' us ps :=
  h.mono_of_mem fun raw parts _ => hextends raw parts

theorem append (h : Scripted template us ps) (h' : Scripted template vs qs)
    (hmeet : (∀ t ∈ us.getLast?, isSeparator t) ∨ ∀ t ∈ vs.head?, isSeparator t) :
    Scripted template (us ++ vs) (ps ++ qs) := by
  induction h with
  | nil => exact h'
  | @separator t us ps ht _ ih =>
    refine .separator ht (ih (hmeet.imp_left fun hlast t' ht' => hlast t' ?_))
    cases us with
    | nil => simp at ht'
    | cons u us => rwa [List.getLast?_cons_cons]
  | @statement us vs' s ps hs hnext _ ih =>
    rw [List.append_assoc]
    refine .statement hs ?_ (ih (hmeet.imp_left fun hlast t ht => hlast t ?_))
    · cases vs' with
      | nil =>
        rcases hmeet with hlast | hhead
        · obtain ⟨us', t, rfl, ht⟩ := hs.ends
          exact absurd (hlast t (by simp)).endsStatement ht
        · exact hhead
      | cons t vs' => exact hnext
    · rw [List.getLast?_append, Option.mem_def.1 ht]
      rfl

end Scripted

theorem scripted_of_statements {n : Nat} (h : statements template n ts = .ok ps) (hts : ts.map (·.token) = us ++ [.eof])
    (heof : .eof ∉ us) : Scripted template us ps := by
  induction n generalizing ts us ps with
  | zero => exact absurd h (fault_ne_ok _ _ _)
  | succ n ih =>
    rcases statements_eq_ok.1 h with ⟨rfl | ⟨p, rest, rfl⟩, rfl⟩ | ⟨t, p, rest, rfl, ht, hrest⟩ |
      ⟨t, p, rest, s, r, ps, hcons, -, hs, hends, hrest, rfl⟩
    · simp at hts
    · have hus : us = [] ∧ _ := append_eof hts heof
      rw [hus.1]
      exact .nil
    · cases us with
      | nil =>
        cases (List.cons.inj hts).1
        rcases ht with ht | ht <;> cases ht
      | cons u us =>
        obtain ⟨rfl, htail⟩ := List.cons.inj hts
        exact .separator ht (ih hrest htail fun hmem => heof (List.mem_cons_of_mem _ hmem))
    · obtain ⟨xs, rfl, hxs⟩ := statement_states hs
      obtain ⟨vs, rfl, hr⟩ : ∃ vs, us = xs.map (·.token) ++ vs ∧ r.map (·.token) = vs ++ [.eof] := by
        rw [List.map_append] at hts
        rcases List.append_eq_append_iff.1 hts with ⟨vs, hvs, hr⟩ | ⟨ws, hws, hr⟩
        · exact ⟨vs, hvs, hr⟩
        · cases ws with
          | nil => exact ⟨[], by simp [hws], hr.symm⟩
          | cons w ws =>
            obtain ⟨xs', t', hlast, ht'⟩ := hxs.ends
            obtain ⟨rfl, hnil⟩ := List.cons.inj hr
            obtain ⟨rfl, -⟩ := List.append_eq_nil_iff.1 hnil.symm
            obtain ⟨-, hlast⟩ := List.append_inj' (hws.symm.trans hlast) rfl
            exact absurd (.inl (List.cons.inj hlast).1.symm) ht'
      refine .statement hxs (fun t' ht' => ?_) (ih hrest hr fun hmem => heof (List.mem_append_right _ hmem))
      cases vs with
      | nil => cases ht'
      | cons v vs =>
        obtain rfl : v = t' := by simpa using ht'
        obtain ⟨⟨_, q⟩, r, rfl, rfl, _⟩ := List.map_eq_cons_iff.1 hr
        exact (hends _ q r rfl).resolve_left fun hv => heof (by simp [hv])

theorem exists_endsStatement {gap : Tokens} (hgap : gap.map (·.token) = vs) (hnext : ∀ t ∈ vs.head?, isSeparator t)
    (p : Position) : ∃ t q r, gap ++ [⟨.eof, p⟩] = ⟨t, q⟩ :: r ∧ endsStatement t := by
  cases vs with
  | nil => exact ⟨.eof, p, [], by rw [List.map_eq_nil_iff.1 hgap]; rfl, .inl rfl⟩
  | cons t vs =>
    obtain ⟨⟨_, q⟩, gap, rfl, rfl, _⟩ := List.map_eq_cons_iff.1 hgap
    exact ⟨_, q, gap ++ [⟨.eof, p⟩], rfl, .inr (hnext _ rfl)⟩

theorem Scripted.statements (h : Scripted template us ps) (hts : ts.map (·.token) = us) (p : Position) {n : Nat}
    (hn : us.length ≤ n) : statements template (n + 1) (ts ++ [⟨.eof, p⟩]) = .ok ps := by
  induction h generalizing ts n with
  | nil =>
    rw [List.map_eq_nil_iff.1 hts]
    exact statements_eq_ok.2 (.inl ⟨.inr ⟨p, [], rfl⟩, rfl⟩)
  | @separator t us ps ht _ ih =>
    obtain ⟨⟨_, q⟩, ts, rfl, rfl, hts₁⟩ := List.map_eq_cons_iff.1 hts
    obtain ⟨n, rfl⟩ := Nat.exists_eq_add_of_le' (Nat.le_trans (Nat.le_add_left 1 _) hn)
    exact statements_eq_ok.2 (.inr (.inl ⟨_, q, _, rfl, ht, ih hts₁ (Nat.le_of_succ_le_succ hn)⟩))
  | @statement us vs s ps hs hnext _ ih =>
    obtain ⟨xs, ts, rfl, hxs, hts₁⟩ := List.map_eq_append_iff.1 hts
    obtain ⟨t', q', r, hr, ht'⟩ := exists_endsStatement hts₁ hnext p
    have hended : Ended (ts ++ [⟨.eof, p⟩]) := ⟨t', q', r, hr, isEnd_of_endsStatement ht'⟩
    obtain ⟨t, us', rfl, ht⟩ := hs.begins
    obtain ⟨⟨_, q⟩, xs, rfl, rfl, _⟩ := List.map_eq_cons_iff.1 hxs
    simp only [List.length_append, List.length_cons] at hn
    obtain ⟨n, rfl⟩ : ∃ k, n = k + 1 := ⟨n - 1, by omega⟩
    rw [List.append_assoc]
    refine statements_eq_ok.2 (.inr (.inr ⟨_, q, _, s, _, ps, rfl, ht, hs.statement hxs hended, fun t q r heq => ?_,
      ih hts₁ (by omega), rfl⟩))
    cases hr.symm.trans heq
    exact ht'

theorem Derives.program (h : Derives template .ternary us e) (hts : ts.map (·.token) = us) (p : Position) :
    program template (ts ++ [⟨.eof, p⟩]) = .ok [.expr e] := by
  have hscript : Scripted template (us ++ []) [.expr e] := .statement (.expr h) (by simp) .nil
  rw [List.append_nil] at hscript
  exact hscript.statements hts p (by rw [← hts]; simp; omega)

/-- A script is read exactly where the tokens in front of the end of the text have its form. -/
theorem program_eq_ok_iff (hts : ts.map (·.token) = us ++ [.eof]) (heof : .eof ∉ us) :
    program template ts = .ok ps ↔ Scripted template us ps := by
  refine ⟨fun h => scripted_of_statements h hts heof, fun h => ?_⟩
  obtain ⟨ts, ts', rfl, hus, hend⟩ := List.map_eq_append_iff.1 hts
  obtain ⟨⟨_, p⟩, rfl, rfl⟩ := List.map_eq_singleton_iff.1 hend
  exact h.statements hus p (by rw [← hus]; simp; omega)

end LiveSheet.Parser
