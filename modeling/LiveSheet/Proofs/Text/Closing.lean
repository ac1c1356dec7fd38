import Mathlib
import LiveSheet.Await.Sequence
import LiveSheet.Proofs.Text.Literals

/-! The parenthesis that closes another one. The search counts as it goes and takes quotes as they come; what it finds
is the first closing parenthesis up to which the literals of the text leave as many parentheses that close as ones
that open. -/

namespace LiveSheet.Text

/-- How often a character stands outside of literals among the first `n` characters. -/
def codeCount (c : Char) (cs : List Char) (n : Nat) : Nat :=
  (cs.take n).zipIdx.countP fun (d, i) => d = c ∧ inSpans (literalSpans true cs) i = false

/-- A `)` up to which as many parentheses close as open outside of literals. -/
def Evens (cs : List Char) (n : Nat) : Prop := cs[n]? = some ')' ∧ codeCount '(' cs (n + 1) = codeCount ')' cs (n + 1)

/-- How often a character stands outside of literals, for a scan that begins in some state. -/
def scanCount (c : Char) : Quoting → List Char → Nat
  | _, [] => 0
  | q, d :: ds => (if d = c ∧ q = .code then 1 else 0) + scanCount c (q.after true d) ds

variable {c : Char} {cs : List Char} {q : Quoting} {depth n : Nat}

theorem countP_zipIdx_eq_scanCount {spans : List Span} {k : Nat}
    (hspans : ∀ j, cs[j]? = some c → inSpans spans (k + j) = decide (q.along true (cs.take j) ≠ .code)) :
    ((cs.zipIdx k).countP fun (d, i) => d = c ∧ inSpans spans i = false) = scanCount c q cs := by
  induction cs generalizing q k with
  | nil => rfl
  | cons d cs ih =>
    have hrest := ih (q := q.after true d) (k := k + 1) fun j hj => by
      have hnext := hspans (j + 1) (by simpa using hj)
      rwa [List.take_succ_cons, Quoting.along_cons, ← Nat.add_assoc, Nat.add_right_comm] at hnext
    have hfirst : d = c → (inSpans spans k = false ↔ q = .code) := by
      rintro rfl
      have hhere : inSpans spans k = decide (q ≠ .code) := hspans 0 rfl
      rw [hhere, decide_eq_false_iff_not, not_ne_iff]
    rw [List.zipIdx_cons, List.countP_cons, hrest, scanCount, Nat.add_comm]
    congr 1
    simp only [decide_eq_true_eq]
    exact if_congr (and_congr_right hfirst) rfl rfl

/-- The literals of a text leave the same to count as a scan does. -/
theorem codeCount_eq_scanCount (hc : opens true c = false) (cs : List Char) (n : Nat) :
    codeCount c cs n = scanCount c .code (cs.take n) := by
  refine countP_zipIdx_eq_scanCount fun j hj => ?_
  obtain ⟨hlt, hget⟩ := List.getElem?_eq_some_iff.1 hj
  have hn : j < n := (List.length_take_le n cs).trans_lt' hlt
  have hcs : cs[j]? = some c := by rwa [List.getElem?_take_of_lt hn] at hj
  rw [Nat.zero_add, inSpans_literalSpans hcs, hc, Bool.or_false, List.take_take, Nat.min_eq_left hn.le]

/-- A `)` up to which as many parentheses close as open, the ones that are open at the start included. -/
def Levels (depth : Nat) (q : Quoting) (cs : List Char) (n : Nat) : Prop :=
  cs[n]? = some ')' ∧ depth + scanCount '(' q (cs.take (n + 1)) = scanCount ')' q (cs.take (n + 1))

theorem levels_code_iff : Levels 0 .code cs n ↔ Evens cs n := by
  rw [Levels, Evens, codeCount_eq_scanCount rfl, codeCount_eq_scanCount rfl, Nat.zero_add]

/-- One character on, the same is the first to come. -/
theorem isLeast_succ_iff {p p' : Nat → Prop} (hzero : ¬p 0) (hsucc : ∀ m, p (m + 1) ↔ p' m) :
    IsLeast {m | p m} n ↔ ∃ m, IsLeast {m | p' m} m ∧ m + 1 = n := by
  constructor
  · rintro ⟨hn, hleast⟩
    obtain _ | m := n
    · exact absurd hn hzero
    · exact ⟨m, ⟨(hsucc m).1 hn, fun k hk => Nat.le_of_succ_le_succ (hleast ((hsucc k).2 hk))⟩, rfl⟩
  · rintro ⟨m, ⟨hm, hleast⟩, rfl⟩
    refine ⟨(hsucc m).2 hm, fun k hk => ?_⟩
    obtain _ | k := k
    · exact absurd hk hzero
    · exact Nat.succ_le_succ (hleast ((hsucc k).1 hk))

theorem parenDistance_step (depth' : Nat) (q' : Quoting)
    (hstep : parenDistance depth q (c :: cs) = (parenDistance depth' q' cs).map (· + 1))
    (hlevels : ∀ m, Levels depth q (c :: cs) (m + 1) ↔ Levels depth' q' cs m) (hzero : ¬Levels depth q (c :: cs) 0)
    (ih : ∀ m, parenDistance depth' q' cs = some m ↔ IsLeast {m | Levels depth' q' cs m} m) :
    parenDistance depth q (c :: cs) = some n ↔ IsLeast {m | Levels depth q (c :: cs) m} n := by
  rw [hstep, Option.map_eq_some_iff, isLeast_succ_iff hzero hlevels]
  simp only [ih]

theorem levels_succ {m : Nat} : Levels depth q (c :: cs) (m + 1) ↔ cs[m]? = some ')' ∧
    depth + ((if c = '(' ∧ q = .code then 1 else 0) + scanCount '(' (q.after true c) (cs.take (m + 1))) =
      (if c = ')' ∧ q = .code then 1 else 0) + scanCount ')' (q.after true c) (cs.take (m + 1)) := by
  rw [Levels, List.getElem?_cons_succ, List.take_succ_cons, scanCount, scanCount]

theorem levels_zero : Levels depth q (c :: cs) 0 ↔ c = ')' ∧ depth = if q = .code then 1 else 0 := by
  simp only [Levels, List.getElem?_cons_zero, Option.some_inj, Nat.zero_add, List.take_succ_cons, List.take_zero,
    scanCount, Nat.add_zero]
  refine and_congr_right ?_
  rintro rfl
  simp

/-- The search finds the first `)` that levels what is open. With nothing open a `)` would end it at once. -/
theorem parenDistance_eq_some_iff (hdepth : depth ≠ 0) :
    parenDistance depth q cs = some n ↔ IsLeast {m | Levels depth q cs m} n := by
  -- one case for each branch of the search; the counts move the way the depth does
  induction cs generalizing depth q n with
  | nil =>
    refine iff_of_false (by cases q <;> simp [parenDistance]) fun h => ?_
    obtain ⟨hchar, -⟩ := h.1
    simp at hchar
  | cons c cs ih =>
    cases q with
    | literal quote escaped =>
      refine parenDistance_step depth _ rfl (fun m => ?_) ?_ fun m => ih hdepth
      · rw [levels_succ, Levels]
        simp
      · simp [levels_zero, hdepth]
    | code =>
      by_cases hopen : c = '('
      · subst hopen
        refine parenDistance_step (depth + 1) .code ?_ (fun m => ?_) ?_ fun m => ih (Nat.succ_ne_zero depth)
        · rw [parenDistance, if_pos rfl]
        · rw [levels_succ, Levels, Quoting.after_code rfl]
          simp [Nat.add_assoc]
        · simp [levels_zero]
      by_cases hclose : c = ')'
      · subst hclose
        -- the last open parenthesis is closed here, and any other leaves one less open
        by_cases hone : depth = 1
        · subst hone
          have hzero : Levels 1 .code (')' :: cs) 0 := levels_zero.2 ⟨rfl, rfl⟩
          rw [parenDistance, if_neg hopen, if_pos rfl, if_neg hdepth, if_pos rfl, Option.some_inj]
          constructor
          · rintro rfl
            exact ⟨hzero, fun m _ => Nat.zero_le m⟩
          · exact fun h => (Nat.le_zero.1 (h.2 hzero)).symm
        · refine parenDistance_step (depth - 1) .code ?_ (fun m => ?_) ?_ fun m => ih (by omega)
          · rw [parenDistance, if_neg hopen, if_pos rfl, if_neg hdepth, if_neg hone]
          · rw [levels_succ, Levels, Quoting.after_code rfl]
            simp
            omega
          · simp [levels_zero, hone]
      · refine parenDistance_step depth (Quoting.code.after true c) ?_ (fun m => ?_) ?_ fun m => ih hdepth
        · rw [parenDistance, if_neg hopen, if_neg hclose]
        · rw [levels_succ, Levels]
          simp [hopen, hclose]
        · simp [levels_zero, hclose]

theorem matchingParen_eq_some_iff : matchingParen ('(' :: cs) = some n ↔ IsLeast {m | Evens ('(' :: cs) m} n := by
  simp only [← levels_code_iff]
  refine parenDistance_step 1 .code ?_ (fun m => ?_) ?_ fun m => parenDistance_eq_some_iff Nat.one_ne_zero
  · rw [parenDistance, if_pos rfl]
  · rw [levels_succ, Levels, Quoting.after_code rfl]
    simp
  · simp [levels_zero]

theorem splitParen_eq_some_iff {args rest : List Char} : Await.splitParen cs = some (args, rest) ↔
    cs = args ++ ')' :: rest ∧ IsLeast {m | Evens ('(' :: cs) m} (args.length + 1) := by
  have hleast : ∀ n, parenDistance 1 .code cs = some n ↔ IsLeast {m | Evens ('(' :: cs) m} (n + 1) := by
    intro n
    rw [← matchingParen_eq_some_iff, matchingParen_paren, Option.map_eq_some_iff]
    simp
  rw [Await.splitParen, Option.map_eq_some_iff]
  constructor
  · rintro ⟨n, hn, heq⟩
    obtain ⟨rfl, rfl⟩ := Prod.mk.inj heq
    have hfirst := (hleast n).1 hn
    obtain ⟨hlt, hchar⟩ := List.getElem?_eq_some_iff.1 (List.getElem?_cons_succ .. ▸ hfirst.1.1)
    refine ⟨?_, by rwa [List.length_take_of_le hlt.le]⟩
    rw [← hchar, ← List.drop_eq_getElem_cons hlt, List.take_append_drop]
  · rintro ⟨rfl, hfirst⟩
    exact ⟨args.length, (hleast args.length).2 hfirst, by simp⟩

theorem byteOffset_eq_sum (cs : List Char) (n : Nat) : byteOffset cs n = ((cs.take n).map Char.utf8Size).sum := by
  rw [List.sum_eq_foldl_nat, List.foldl_map]
  rfl

theorem byteOffset_mono (cs : List Char) {m n : Nat} (h : m ≤ n) : byteOffset cs m ≤ byteOffset cs n := by
  obtain ⟨k, rfl⟩ := Nat.exists_eq_add_of_le h
  rw [byteOffset_eq_sum, byteOffset_eq_sum, List.take_add, List.map_append, List.sum_append]
  exact Nat.le_add_right _ _

/-- The bytes before a character tell which one it is. -/
theorem charOffset_byteOffset (h : n ≤ cs.length) : charOffset cs (byteOffset cs n) = n := by
  induction cs generalizing n with
  | nil =>
    obtain rfl := Nat.le_zero.1 h
    rfl
  | cons c cs ih =>
    cases n with
    | zero => rfl
    | succ n =>
      have hbytes : byteOffset (c :: cs) (n + 1) = c.utf8Size + byteOffset cs n := by
        rw [byteOffset_eq_sum, byteOffset_eq_sum, List.take_succ_cons, List.map_cons, List.sum_cons]
      have hpos : c.utf8Size + byteOffset cs n ≠ 0 := by
        have := c.utf8Size_pos
        omega
      rw [hbytes, charOffset, Nat.add_sub_cancel_left, ih (Nat.le_of_succ_le_succ h), Nat.add_comm]
      exact hpos

/-- A character of a text, given by the offset of its first byte. -/
def StandsAt (text : String) (c : Char) (offset : Nat) : Prop :=
  ∃ n, byteOffset text.toList n = offset ∧ text.toList[n]? = some c

/-- A `)` that evens out the parentheses of the text from some byte offset on. -/
def Closes (text : String) (opening p : Nat) : Prop :=
  ∃ n k, byteOffset text.toList n = opening ∧ byteOffset text.toList (n + k) = p ∧ Evens (text.toList.drop n) k

theorem Evens.lt_length (h : Evens cs n) : n < cs.length := (List.getElem?_eq_some_iff.1 h.1).1

theorem closes_byteOffset {text : String} {p : Nat} (hn : n ≤ text.toList.length) :
    Closes text (byteOffset text.toList n) p ↔ ∃ k, Evens (text.toList.drop n) k ∧ byteOffset text.toList (n + k) = p := by
  constructor
  · rintro ⟨m, k, hm, hp, hk⟩
    have hlt := hk.lt_length
    rw [List.length_drop] at hlt
    have hmn : m = n := by
      rw [← charOffset_byteOffset hn, ← hm, charOffset_byteOffset (by omega)]
    exact ⟨k, hmn ▸ hk, hmn ▸ hp⟩
  · rintro ⟨k, hk, hp⟩
    exact ⟨n, k, rfl, hp, hk⟩

theorem isLeast_closes {text : String} {k : Nat} (hn : n ≤ text.toList.length)
    (hk : IsLeast {m | Evens (text.toList.drop n) m} k) :
    IsLeast {p | Closes text (byteOffset text.toList n) p} (byteOffset text.toList (n + k)) := by
  refine ⟨(closes_byteOffset hn).2 ⟨k, hk.1, rfl⟩, fun p hp => ?_⟩
  obtain ⟨m, hm, rfl⟩ := (closes_byteOffset hn).1 hp
  exact byteOffset_mono _ (Nat.add_le_add_left (hk.2 hm) n)

theorem exists_isLeast_of_closes {text : String} {p : Nat} (hn : n ≤ text.toList.length)
    (h : Closes text (byteOffset text.toList n) p) : ∃ k, IsLeast {m | Evens (text.toList.drop n) m} k := by
  classical
  obtain ⟨k, hk, -⟩ := (closes_byteOffset hn).1 h
  exact ⟨_, Nat.isLeast_find ⟨k, hk⟩⟩

theorem matchingParenAt_byteOffset {text : String} {p : Nat} (hn : text.toList[n]? = some '(') :
    matchingParenAt text (byteOffset text.toList n) = some p ↔
      ∃ k, IsLeast {m | Evens (text.toList.drop n) m} k ∧ byteOffset text.toList (n + k) = p := by
  obtain ⟨hlt, hchar⟩ := List.getElem?_eq_some_iff.1 hn
  have hrest : text.toList.drop n = '(' :: text.toList.drop (n + 1) := by
    rw [List.drop_eq_getElem_cons hlt, hchar]
  simp only [matchingParenAt, charOffset_byteOffset hlt.le, Option.map_eq_some_iff]
  rw [hrest]
  simp only [matchingParen_eq_some_iff]

/-- The search from a `(` finds the first `)` at or behind it up to which as many parentheses close as open outside of
literals, and nothing if there is none. -/
theorem matchingParenAt_isLeast {text : String} {opening : Nat} (h : StandsAt text '(' opening) :
    (∀ p, matchingParenAt text opening = some p ↔ IsLeast {p | Closes text opening p} p) ∧
      (matchingParenAt text opening = none ↔ ∀ p, ¬Closes text opening p) := by
  obtain ⟨n, rfl, hn⟩ := h
  have hle : n ≤ text.toList.length := (List.getElem?_eq_some_iff.1 hn).1.le
  have hsome : ∀ p, matchingParenAt text (byteOffset text.toList n) = some p ↔
      IsLeast {p | Closes text (byteOffset text.toList n) p} p := by
    intro p
    rw [matchingParenAt_byteOffset hn]
    constructor
    · rintro ⟨k, hk, rfl⟩
      exact isLeast_closes hle hk
    · intro hp
      obtain ⟨k, hk⟩ := exists_isLeast_of_closes hle hp.1
      exact ⟨k, hk, (isLeast_closes hle hk).unique hp⟩
  refine ⟨hsome, fun hnone p hp => ?_, fun hnone => Option.eq_none_iff_forall_ne_some.2 fun p hp => ?_⟩
  · obtain ⟨k, hk⟩ := exists_isLeast_of_closes hle hp
    rw [(hsome _).2 (isLeast_closes hle hk)] at hnone
    cases hnone
  · exact hnone p ((hsome p).1 hp).1

theorem matchingParenAt_isLeast_call : StandsAt "f(a, g(b), ')') + 1" '(' 1 ∧ matchingParenAt "f(a, g(b), ')') + 1" 1 = some 14 ∧
    IsLeast {p | Closes "f(a, g(b), ')') + 1" 1 p} 14 := by
  have hopening : StandsAt "f(a, g(b), ')') + 1" '(' 1 := ⟨1, by decide, by decide⟩
  have hrun : matchingParenAt "f(a, g(b), ')') + 1" 1 = some 14 := by cbv
  exact ⟨hopening, hrun, ((matchingParenAt_isLeast hopening).1 14).1 hrun⟩

end LiveSheet.Text
