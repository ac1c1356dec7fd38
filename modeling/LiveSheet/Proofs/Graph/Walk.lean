import LiveSheet.Graph.Schedule
import LiveSheet.Proofs.Graph.Reach

/-! What the depth-first walk leaves behind. Its marks follow the stack of the recursion: visited
are the variables on the path to where it stands, and done those in the order. One piece of it
appends variables to the order and edges to the broken ones; the variables that are new are fresh,
and each of their edges is either kept, and then its target comes first, or broken. Pieces compose,
and from them follows that a schedule orders its variables and breaks an edge only to open a cycle. -/

namespace LiveSheet
open Relation (ReflTransGen TransGen)

namespace Schedule

def Precedes (order : List String) (a b : String) : Prop := [a, b].Sublist order

theorem Precedes.left {order : List String} {a b : String} (h : Precedes order a b) : a ∈ order :=
  h.subset (by simp)

theorem Precedes.right {order : List String} {a b : String} (h : Precedes order a b) : b ∈ order :=
  h.subset (by simp)

theorem split_pair {a b : String} {xs ys : List String} (h : [a, b] = xs ++ ys) :
    (xs = [] ∧ ys = [a, b]) ∨ (xs = [a] ∧ ys = [b]) ∨ (xs = [a, b] ∧ ys = []) := by
  rcases xs with _ | ⟨x, _ | ⟨y, xs⟩⟩ <;> simp_all

theorem precedes_append_iff {l m : List String} {a b : String} (h : b ∉ m) :
    Precedes (l ++ m) a b ↔ Precedes l a b := by
  constructor
  · intro hp
    obtain ⟨xs, ys, heq, hl, hm⟩ := List.sublist_append_iff.1 hp
    rcases split_pair heq with ⟨_, rfl⟩ | ⟨_, rfl⟩ | ⟨rfl, _⟩
    · exact absurd (hm.subset (by simp)) h
    · exact absurd (hm.subset (by simp)) h
    · exact hl
  · intro hp
    exact hp.trans (List.sublist_append_left l m)

theorem precedes_concat_iff {l : List String} {a b : String} (h : b ∉ l) :
    Precedes (l ++ [b]) a b ↔ a ∈ l := by
  constructor
  · intro hp
    obtain ⟨xs, ys, heq, hl, hm⟩ := List.sublist_append_iff.1 hp
    rcases split_pair heq with ⟨_, rfl⟩ | ⟨rfl, _⟩ | ⟨rfl, _⟩
    · exact absurd hm.length_le (by simp)
    · exact List.singleton_sublist.1 hl
    · exact absurd (hl.subset (by simp)) h
  · intro ha
    exact (List.singleton_sublist.2 ha).append (List.Sublist.refl [b])

theorem idxOf_lt_of_precedes {l : List String} {a b : String} (hn : l.Nodup) (h : Precedes l a b) :
    l.idxOf a < l.idxOf b := by
  induction l with
  | nil => simpa using h.left
  | cons c l ih =>
    obtain ⟨hc, hn⟩ := List.nodup_cons.1 hn
    rcases List.cons_sublist_cons'.1 h with h | ⟨rfl, hb⟩
    · have ha : c ≠ a := fun e => hc (e ▸ Precedes.left h)
      have hb : c ≠ b := fun e => hc (e ▸ Precedes.right h)
      rw [List.idxOf_cons_ne _ ha, List.idxOf_cons_ne _ hb]
      exact Nat.succ_lt_succ (ih hn h)
    · have hb : a ≠ b := fun e => hc (e ▸ List.singleton_sublist.1 hb)
      rw [List.idxOf_cons_self, List.idxOf_cons_ne _ hb]
      exact Nat.succ_pos _

/-- A piece of the walk from `s` to `t` that starts below `path`: it orders `new` and breaks
`cuts`. -/
structure Walk (nodes : List String) (next : String → List String) (path : List String)
    (s t : Schedule) (new : List String) (cuts : List BrokenEdge) : Prop where
  order : t.order = s.order ++ new
  brokenEdges : t.brokenEdges = s.brokenEdges ++ cuts
  nodup : new.Nodup
  fresh : ∀ v ∈ new, v ∉ s.order ∧ v ∉ path
  within : ∀ v ∈ new, v ∈ nodes
  settled : ∀ v ∈ new, ∀ d ∈ next v, Precedes t.order d v ↔ ⟨v, d⟩ ∉ cuts
  nodup_cuts : cuts.Nodup
  cycle : ∀ e ∈ cuts, e.target ∈ next e.source ∧ TransGen (fun a b => b ∈ next a) e.target e.source

variable {nodes : List String} {next : String → List String} {path : List String} {name : String}
  {s t u : Schedule}

theorem Walk.refl : Walk nodes next path s s [] [] := by
  constructor <;> simp

theorem Walk.breakEdge {d : String} (hd : d ∈ next name)
    (hc : TransGen (fun a b => b ∈ next a) d name) :
    Walk nodes next path s (s.breakEdge name d) [] [⟨name, d⟩] := by
  constructor <;> simp [Schedule.breakEdge, hd, hc]

theorem Walk.trans {new₁ new₂ : List String} {cuts₁ cuts₂ : List BrokenEdge}
    (h₁ : Walk nodes next path s t new₁ cuts₁) (h₂ : Walk nodes next path t u new₂ cuts₂)
    (hs₁ : ∀ e ∈ cuts₁, e.source ∉ new₂) (hs₂ : ∀ e ∈ cuts₂, e.source ∉ new₁)
    (hcuts : ∀ e ∈ cuts₁, e ∉ cuts₂) :
    Walk nodes next path s u (new₁ ++ new₂) (cuts₁ ++ cuts₂) := by
  have hnew : ∀ v ∈ new₁, v ∉ new₂ := by
    intro v hv hv₂
    have := (h₂.fresh v hv₂).1
    rw [h₁.order] at this
    exact this (List.mem_append_right _ hv)
  constructor
  · rw [h₂.order, h₁.order, List.append_assoc]
  · rw [h₂.brokenEdges, h₁.brokenEdges, List.append_assoc]
  · exact List.nodup_append.2 ⟨h₁.nodup, h₂.nodup, fun a ha b hb e => hnew a ha (e ▸ hb)⟩
  · intro v hv
    rcases List.mem_append.1 hv with hv | hv
    · exact h₁.fresh v hv
    · have hf := h₂.fresh v hv
      rw [h₁.order] at hf
      exact ⟨fun h => hf.1 (List.mem_append_left _ h), hf.2⟩
  · intro v hv
    rcases List.mem_append.1 hv with hv | hv
    · exact h₁.within v hv
    · exact h₂.within v hv
  · intro v hv d hd
    rw [List.mem_append]
    rcases List.mem_append.1 hv with hv | hv
    · have hc : (⟨v, d⟩ : BrokenEdge) ∉ cuts₂ := fun h => hs₂ _ h hv
      rw [h₂.order, precedes_append_iff (hnew v hv), h₁.settled v hv d hd]
      simp [hc]
    · have hc : (⟨v, d⟩ : BrokenEdge) ∉ cuts₁ := fun h => hs₁ _ h hv
      rw [h₂.settled v hv d hd]
      simp [hc]
  · exact List.nodup_append.2 ⟨h₁.nodup_cuts, h₂.nodup_cuts, fun a ha b hb e => hcuts a ha (e ▸ hb)⟩
  · intro e he
    rcases List.mem_append.1 he with he | he
    · exact h₁.cycle e he
    · exact h₂.cycle e he

/-- The walk stands at `name`, to which each variable on `path` leads. None of them is ordered
yet, so the walk is not deeper than there are nodes. -/
structure Descent (nodes : List String) (next : String → List String) (path : List String)
    (name : String) (s : Schedule) : Prop where
  nodup : (name :: path).Nodup
  subset : ∀ a ∈ name :: path, a ∈ nodes
  pending : ∀ a ∈ name :: path, a ∉ s.order
  leads : ∀ a ∈ path, TransGen (fun a b => b ∈ next a) a name

theorem Descent.length_lt (h : Descent nodes next path name s) : path.length < nodes.length :=
  List.Nodup.length_le_of_subset h.nodup h.subset

theorem Descent.leads_of_mem {a d : String} (h : Descent nodes next path name s)
    (ha : a ∈ name :: path) (hd : d ∈ next name) : TransGen (fun a b => b ∈ next a) a d := by
  rcases List.mem_cons.1 ha with rfl | ha
  · exact .single hd
  · exact (h.leads a ha).tail hd

theorem Descent.leads_back {d : String} (h : Descent nodes next path name s) (hp : d ∈ name :: path)
    (hd : d ∈ next name) : TransGen (fun a b => b ∈ next a) d name := by
  rcases List.mem_cons.1 hp with rfl | hp
  · exact .single hd
  · exact h.leads d hp

theorem Descent.push {d : String} (h : Descent nodes next path name s) (hd : d ∈ next name)
    (hnode : d ∈ nodes) (hpath : d ∉ name :: path) (horder : d ∉ s.order) :
    Descent nodes next (name :: path) d s where
  nodup := List.nodup_cons.2 ⟨hpath, h.nodup⟩
  subset a ha := by
    rcases List.mem_cons.1 ha with rfl | ha
    · exact hnode
    · exact h.subset a ha
  pending a ha := by
    rcases List.mem_cons.1 ha with rfl | ha
    · exact horder
    · exact h.pending a ha
  leads a ha := h.leads_of_mem ha hd

theorem Descent.after {new : List String} {cuts : List BrokenEdge}
    (h : Descent nodes next path name s) (hw : Walk nodes next (name :: path) s t new cuts) :
    Descent nodes next path name t where
  nodup := h.nodup
  subset := h.subset
  pending a ha := by
    rw [hw.order, List.mem_append]
    rintro (hs | hn)
    · exact h.pending a ha hs
    · exact (hw.fresh a hn).2 ha
  leads := h.leads

/-- An edge that was broken while going through what `name` reads: it starts at a variable that
was ordered meanwhile, or leads from `name` back to the path. -/
def Below (path : List String) (name : String) (ds new : List String) (e : BrokenEdge) : Prop :=
  e.source ∈ new ∨ (e.source = name ∧ e.target ∈ ds ∧ e.target ∈ path)

/-- A walk through `ds`, some of what `name` reads: each is then ordered, or its edge broken. -/
structure Through (nodes : List String) (next : String → List String) (path : List String)
    (name : String) (ds : List String) (s t : Schedule) (new : List String) (cuts : List BrokenEdge) :
    Prop where
  walk : Walk nodes next (name :: path) s t new cuts
  reached : ∀ d ∈ ds, d ∈ s.order ++ new ∨ ⟨name, d⟩ ∈ cuts
  below : ∀ e ∈ cuts, Below (name :: path) name ds new e

namespace Through

variable {d : String} {ds new : List String} {cuts : List BrokenEdge}

theorem nil : Through nodes next path name [] s s [] [] := ⟨.refl, by simp, by simp⟩

theorem below_cons (h : Through nodes next path name ds s t new cuts) :
    ∀ e ∈ cuts, Below (name :: path) name (d :: ds) new e := fun e he =>
  (h.below e he).imp_right fun h => ⟨h.1, List.mem_cons_of_mem d h.2.1, h.2.2⟩

theorem not_mem_new (h : Through nodes next path name ds s t new cuts) : name ∉ new := fun hn =>
  (h.walk.fresh name hn).2 List.mem_cons_self

theorem ordered (h : Through nodes next path name ds s t new cuts) (hd : d ∈ s.order) :
    Through nodes next path name (d :: ds) s t new cuts := by
  refine ⟨h.walk, fun a ha => ?_, h.below_cons⟩
  rcases List.mem_cons.1 ha with rfl | ha
  · exact .inl (List.mem_append_left _ hd)
  · exact h.reached a ha

theorem cut (hcut : Walk nodes next (name :: path) s (s.breakEdge name d) [] [⟨name, d⟩])
    (hpath : d ∈ name :: path) (hd : d ∉ ds)
    (h : Through nodes next path name ds (s.breakEdge name d) t new cuts) :
    Through nodes next path name (d :: ds) s t new (⟨name, d⟩ :: cuts) := by
  refine ⟨hcut.trans h.walk (by simpa using h.not_mem_new) (by simp) ?_, fun a ha => ?_, fun e he => ?_⟩
  · intro e he hc
    obtain rfl := List.mem_singleton.1 he
    rcases h.below _ hc with hn | ⟨_, ht, _⟩
    · exact h.not_mem_new hn
    · exact hd ht
  · rcases List.mem_cons.1 ha with rfl | ha
    · exact .inr List.mem_cons_self
    · exact (h.reached a ha).imp_right (List.mem_cons_of_mem _)
  · rcases List.mem_cons.1 he with rfl | he
    · exact .inr ⟨rfl, List.mem_cons_self, hpath⟩
    · exact h.below_cons e he

theorem visit {new₁ : List String} {cuts₁ : List BrokenEdge}
    (hw : Walk nodes next (name :: path) s t new₁ cuts₁) (hd : d ∈ new₁) (hs : ∀ e ∈ cuts₁, e.source ∈ new₁)
    (h : Through nodes next path name ds t u new cuts) :
    Through nodes next path name (d :: ds) s u (new₁ ++ new) (cuts₁ ++ cuts) := by
  have hnew : ∀ v ∈ new₁, v ∉ new := fun v hv hv₂ =>
    (h.walk.fresh v hv₂).1 (hw.order ▸ List.mem_append_right _ hv)
  have hsource : ∀ e ∈ cuts, e.source ∉ new₁ := by
    intro e he hn
    rcases h.below e he with hn₂ | ⟨rfl, _⟩
    · exact hnew _ hn hn₂
    · exact (hw.fresh _ hn).2 List.mem_cons_self
  refine ⟨hw.trans h.walk (fun e he => hnew _ (hs e he)) hsource
    (fun e he₁ he₂ => hsource e he₂ (hs e he₁)), fun a ha => ?_, fun e he => ?_⟩
  · rw [← List.append_assoc, ← hw.order]
    rcases List.mem_cons.1 ha with rfl | ha
    · exact .inl (List.mem_append_left _ (hw.order ▸ List.mem_append_right _ hd))
    · exact (h.reached a ha).imp_right (List.mem_append_right _)
  · rcases List.mem_append.1 he with he | he
    · exact .inl (List.mem_append_left _ (hs e he))
    · exact (h.below_cons e he).imp_left (List.mem_append_right _)

theorem finish (hdescent : Descent nodes next path name s)
    (h : Through nodes next path name (next name) s t new cuts) :
    Walk nodes next path s (t.finish name) (new ++ [name]) cuts := by
  have hw := h.walk
  have hname : name ∈ name :: path := List.mem_cons_self
  have horder : name ∉ s.order ++ new := by
    rw [List.mem_append, not_or]
    exact ⟨hdescent.pending name hname, h.not_mem_new⟩
  refine ⟨?_, hw.brokenEdges, ?_, ?_, ?_, ?_, hw.nodup_cuts, hw.cycle⟩
  · rw [Schedule.finish, hw.order, List.append_assoc]
  · exact List.nodup_append.2 ⟨hw.nodup, by simp, fun a ha b hb e =>
      h.not_mem_new (List.mem_singleton.1 hb ▸ e ▸ ha)⟩
  · intro v hv
    rcases List.mem_append.1 hv with hv | hv
    · exact ⟨(hw.fresh v hv).1, fun hp => (hw.fresh v hv).2 (List.mem_cons_of_mem _ hp)⟩
    · obtain rfl := List.mem_singleton.1 hv
      exact ⟨hdescent.pending v hname, (List.nodup_cons.1 hdescent.nodup).1⟩
  · intro v hv
    rcases List.mem_append.1 hv with hv | hv
    · exact hw.within v hv
    · exact List.mem_singleton.1 hv ▸ hdescent.subset name hname
  · intro v hv d hd
    rw [Schedule.finish, hw.order]
    rcases List.mem_append.1 hv with hv | hv
    · have hne : v ∉ [name] := fun e => h.not_mem_new (List.mem_singleton.1 e ▸ hv)
      rw [precedes_append_iff hne, ← hw.order]
      exact hw.settled v hv d hd
    · obtain rfl := List.mem_singleton.1 hv
      rw [precedes_concat_iff horder]
      refine ⟨fun hd' hc => ?_, fun hc => (h.reached d hd).resolve_right hc⟩
      rcases h.below _ hc with hn | ⟨_, _, hp⟩
      · exact h.not_mem_new hn
      · rcases List.mem_append.1 hd' with hs | hn
        · exact hdescent.pending d hp hs
        · exact (hw.fresh d hn).2 hp

end Through

end Schedule

namespace Traversal

open Schedule (Walk Descent Through)

variable {nodes : List String} {next : String → List String} {path : List String} {name : String}
  {t : Traversal}

/-- The marks of a walk that stands below `path`. -/
structure Marked (path : List String) (t : Traversal) : Prop where
  done : ∀ n, t.marks[n]? = some .done ↔ n ∈ t.schedule.order
  visiting : ∀ n, t.marks[n]? = some .visiting ↔ n ∈ path

namespace Marked

theorem start : Marked [] .start := by
  constructor <;> simp [Traversal.start, Schedule.empty]

theorem enter (h : Marked path t) (horder : name ∉ t.schedule.order) : Marked (name :: path) (t.enter name) := by
  constructor <;> intro n <;> simp only [Traversal.enter, NameMap.get?_insert, List.mem_cons]
  · split
    · next heq => simpa [← heq] using horder
    · exact h.done n
  · split
    · next heq => simp [heq]
    · next hne => simpa [Ne.symm hne] using h.visiting n

theorem leave (h : Marked (name :: path) t) (hname : name ∉ path) : Marked path (t.leave name) := by
  constructor <;> intro n <;> simp only [Traversal.leave, NameMap.get?_insert, Schedule.finish, List.mem_append,
    List.mem_singleton]
  · split
    · next heq => simp [heq]
    · next hne => simpa [Ne.symm hne] using h.done n
  · split
    · next heq => simpa [← heq] using hname
    · next hne => simpa [Ne.symm hne] using h.visiting n

theorem breakEdge (h : Marked path t) (source target : String) : Marked path (t.breakEdge source target) :=
  ⟨h.done, h.visiting⟩

theorem marks_eq_none_iff (h : Marked path t) (n : String) :
    t.marks[n]? = none ↔ n ∉ t.schedule.order ∧ n ∉ path := by
  rw [← h.done, ← h.visiting]
  rcases t.marks[n]? with _ | _ | _ <;> simp

end Marked

/-- What a visit of any variable does that the depth suffices for. -/
def Visits (nodes : List String) (next : String → List String) (depth : Nat) : Prop :=
  ∀ path name t, Marked path t → Descent nodes next path name t.schedule → nodes.length ≤ depth + path.length →
    Marked path (visit next depth name t) ∧
    ∃ new cuts, Walk nodes next path t.schedule (visit next depth name t).schedule new cuts ∧ name ∈ new ∧
      ∀ e ∈ cuts, e.source ∈ new

/-- The induction is on `ds`; a variable without a mark is visited, and the path is the same after it. -/
theorem visitAll_through (closed : ∀ a ∈ nodes, ∀ b ∈ next a, b ∈ nodes) {depth : Nat}
    (visits : Visits nodes next depth) (hdepth : nodes.length ≤ depth + (path.length + 1))
    (ds : List String) (hds : ∀ d ∈ ds, d ∈ next name) (hnodup : ds.Nodup) (hmarked : Marked (name :: path) t)
    (h : Descent nodes next path name t.schedule) :
    Marked (name :: path) (visitAll next depth name ds t) ∧
    ∃ new cuts, Through nodes next path name ds t.schedule (visitAll next depth name ds t).schedule new cuts := by
  induction ds generalizing t with
  | nil =>
    rw [visitAll]
    exact ⟨hmarked, [], [], .nil⟩
  | cons d ds ih =>
    obtain ⟨hd, hnodup⟩ := List.nodup_cons.1 hnodup
    have hnext := hds d List.mem_cons_self
    have hds := fun a ha => hds a (List.mem_cons_of_mem d ha)
    rw [visitAll]
    split
    · next hdone =>
      obtain ⟨hafter, new, cuts, hrest⟩ := ih hds hnodup hmarked h
      exact ⟨hafter, new, cuts, hrest.ordered ((hmarked.done d).1 hdone)⟩
    · next hvisiting =>
      have hpath := (hmarked.visiting d).1 hvisiting
      have hcut : Walk nodes next (name :: path) t.schedule (t.breakEdge name d).schedule [] [⟨name, d⟩] :=
        .breakEdge hnext (h.leads_back hpath hnext)
      obtain ⟨hafter, new, cuts, hrest⟩ := ih hds hnodup (hmarked.breakEdge name d) (h.after hcut)
      exact ⟨hafter, new, _, .cut hcut hpath hd hrest⟩
    · next hnone =>
      obtain ⟨horder, hpath⟩ := (hmarked.marks_eq_none_iff d).1 hnone
      have hnode := closed name (h.subset name List.mem_cons_self) d hnext
      obtain ⟨hmarked₁, new₁, cuts₁, hw₁, hd₁, hs₁⟩ :=
        visits (name :: path) d t hmarked (h.push hnext hnode hpath horder) hdepth
      obtain ⟨hafter, new₂, cuts₂, hrest⟩ := ih hds hnodup hmarked₁ (h.after hw₁)
      exact ⟨hafter, _, _, .visit hw₁ hd₁ hs₁ hrest⟩

theorem visits (closed : ∀ a ∈ nodes, ∀ b ∈ next a, b ∈ nodes) (hnext : ∀ a, (next a).Nodup)
    (depth : Nat) : Visits nodes next depth := by
  induction depth with
  | zero =>
    intro path name t _ h hdepth
    have := h.length_lt
    omega
  | succ depth ih =>
    intro path name t hmarked h hdepth
    obtain ⟨hafter, new, cuts, hall⟩ := visitAll_through closed ih (by omega) (next name) (fun _ hd => hd) (hnext name)
      (hmarked.enter (h.pending name List.mem_cons_self)) h
    rw [visit]
    refine ⟨hafter.leave (List.nodup_cons.1 h.nodup).1, new ++ [name], cuts, hall.finish h, by simp, fun e he => ?_⟩
    rcases hall.below e he with hn | ⟨rfl, _⟩ <;> simp [*]

theorem visitRoots_walk (closed : ∀ a ∈ nodes, ∀ b ∈ next a, b ∈ nodes)
    (hnext : ∀ a, (next a).Nodup) {depth : Nat} (hdepth : nodes.length ≤ depth)
    (roots : List String) (hroots : ∀ r ∈ roots, r ∈ nodes) (hmarked : Marked [] t) :
    ∃ new cuts, Walk nodes next [] t.schedule (visitRoots next depth roots t).schedule new cuts ∧
      (∀ r ∈ roots, r ∈ t.schedule.order ++ new) ∧ ∀ e ∈ cuts, e.source ∈ new := by
  induction roots generalizing t with
  | nil => exact ⟨[], [], .refl, by simp, by simp⟩
  | cons r roots ih =>
    have hr := hroots r List.mem_cons_self
    have hroots := fun a ha => hroots a (List.mem_cons_of_mem r ha)
    simp only [visitRoots, List.foldl_cons] at ih ⊢
    by_cases hmark : t.marks.contains r = true
    · rw [if_pos hmark]
      have hdone : r ∈ t.schedule.order := by
        have hsome : t.marks[r]? ≠ none := by simpa using hmark
        simpa [hmarked.marks_eq_none_iff] using hsome
      obtain ⟨new, cuts, hw, hall, hcuts⟩ := ih hroots hmarked
      refine ⟨new, cuts, hw, ?_, hcuts⟩
      intro a ha
      rcases List.mem_cons.1 ha with rfl | ha
      · exact List.mem_append_left _ hdone
      · exact hall a ha
    · rw [if_neg hmark]
      have horder : r ∉ t.schedule.order := by
        have hnone : t.marks[r]? = none := by simpa using hmark
        exact ((hmarked.marks_eq_none_iff r).1 hnone).1
      have h : Descent nodes next [] r t.schedule := ⟨by simp, by simpa using hr, by simpa using horder, by simp⟩
      obtain ⟨hmarked₁, new₁, cuts₁, hw₁, hr₁, hs₁⟩ :=
        visits closed hnext depth [] r t hmarked h (by simpa using hdepth)
      obtain ⟨new₂, cuts₂, hw₂, hall, hs₂⟩ := ih hroots hmarked₁
      have hnew : ∀ v ∈ new₁, v ∉ new₂ := fun v hv hv₂ =>
        (hw₂.fresh v hv₂).1 (hw₁.order ▸ List.mem_append_right _ hv)
      have hsource : ∀ e ∈ cuts₂, e.source ∉ new₁ := fun e he hn => hnew _ hn (hs₂ e he)
      refine ⟨new₁ ++ new₂, cuts₁ ++ cuts₂,
        hw₁.trans hw₂ (fun e he => hnew _ (hs₁ e he)) hsource
          (fun e he₁ he₂ => hsource e he₂ (hs₁ e he₁)), ?_, ?_⟩
      · intro a ha
        rw [← List.append_assoc, ← hw₁.order]
        rcases List.mem_cons.1 ha with rfl | ha
        · exact List.mem_append_left _ (hw₁.order ▸ List.mem_append_right _ hr₁)
        · exact hall a ha
      · intro e he
        rcases List.mem_append.1 he with he | he
        · exact List.mem_append_left _ (hs₁ e he)
        · exact List.mem_append_right _ (hs₂ e he)

end Traversal

end LiveSheet
