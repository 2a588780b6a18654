-- The questions of a session: each about two branches of one split that qualifies when
-- the round begins, and no two about the same nodes. A round may well record its answers
-- only once all its splits have been asked about, since no node is a branch of two of them.
import StateGraph.Proofs.AcceptedMerges
import StateGraph.Proofs.Recording

namespace StateGraph

/-- The two nodes that a question is about, in no order. -/
def Question.nodes (q : Question) : Link := ⟨min q.first q.second, max q.first q.second⟩

theorem Question.nodes_eq_iff {q r : Question} : q.nodes = r.nodes ↔
    (q.first = r.first ∧ q.second = r.second) ∨ (q.first = r.second ∧ q.second = r.first) := by
  have hnat : ∀ a b c d : Nat, min a b = min c d ∧ max a b = max c d ↔
      (a = c ∧ b = d) ∨ (a = d ∧ b = c) := by omega
  simp only [nodes, Link.mk.injEq]
  exact hnat _ _ _ _

/-- A question is about two branches of one set: about the lower node first, and with the
configurations of the branches. -/
structure Question.Of (q : Question) (set : BranchSet) (a b : Branch) : Prop where
  first_mem : a ∈ set.branches
  second_mem : b ∈ set.branches
  lt : a.node < b.node
  first : q.first = a.node
  second : q.second = b.node
  firstConfig : q.firstConfig = a.config
  secondConfig : q.secondConfig = b.config

namespace Merging

variable {σ : Type} {oracle : Oracle σ} {s s' : Session σ} {I J : Session σ → Prop}

/-! ## Every question of a session -/

theorem maintains_weigh {a b : Branch}
    (hok : ∀ s yes m, I s → known? s.questions a.node b.node = none →
      (oracle.mergeable a.config b.config).run s.memory = .ok yes m → I (s.noted a b (.ok yes) m))
    (herror : ∀ s e m, I s → known? s.questions a.node b.node = none →
      (oracle.mergeable a.config b.config).run s.memory = .error e m →
      J (s.noted a b (.error e) m))
    (found : Compatibility × Nat) : Maintains I J (weigh oracle found (a, b)) := by
  intro s hs
  rw [weigh_run]
  cases hknown : known? s.questions a.node b.node with
  | some yes => exact hs
  | none =>
    cases hans : (oracle.mergeable a.config b.config).run s.memory with
    | ok yes m => exact hok s yes m hs hknown hans
    | error e m => exact herror s e m hs hknown hans

/-- What the questions of a round keep, the round keeps while it makes its plans. -/
theorem maintains_discover_all {sets : List BranchSet}
    (hweigh : ∀ set ∈ sets, ∀ pair ∈ pairs set.branches, ∀ found,
      Maintains I J (weigh oracle found pair)) :
    Maintains I J (sets.mapM (discover oracle)) :=
  .mapM fun set hset => Maintains.bind (x := compatibility oracle set)
    (.foldlM (fun found pair hpair => hweigh set hset pair hpair found) _) fun _ => .pure _

/-- What questions, guards and changes of the graph keep, a session keeps. -/
theorem maintains_rounds
    (hupdate : ∀ {β : Type} (change : Update β), Maintains I J (update change))
    (hguards : ∀ guards, Maintains I J (consult (oracle.mergeGuards guards)))
    (hweigh : ∀ g : Graph, ∀ set ∈ g.branchSets, ∀ pair ∈ pairs set.branches, ∀ found,
      Maintains I J (weigh oracle found pair)) (limit : Nat) (report : Report) :
    Maintains I J (rounds oracle limit report) := by
  induction limit generalizing report with
  | zero => exact .pure report
  | succ limit ih =>
    unfold rounds roundsBy
    refine maintains_get.bind fun s =>
      (maintains_discover_all (hweigh s.graph)).bind fun _ => ?_
    extract_lets
    split
    · exact .pure _
    · refine (Maintains.mapM fun p _ => maintains_carryOutIfCurrent hupdate hguards p).bind
        fun _ => (hupdate _).bind fun _ => ?_
      extract_lets
      split
      · exact .pure _
      · exact ih _

theorem pair_lt {g : Graph} {set : BranchSet} (hset : set ∈ g.branchSets) {a b : Branch}
    (hpair : (a, b) ∈ pairs set.branches) : a.node < b.node := by
  obtain ⟨cases, hq⟩ := Graph.qualified_of_mem hset
  exact rel_of_mem_pairs hq.ascending hpair

/-! ## No pair is asked about twice -/

/-- No two questions are about the same nodes, and each is about two, the lower first. -/
structure AskedOnce (questions : List Question) : Prop where
  nodup : (questions.map Question.nodes).Nodup
  lt : ∀ q ∈ questions, q.first < q.second

/-- All questions have been answered. -/
def Replied (questions : List Question) : Prop := ∀ q ∈ questions, ∃ yes, q.reply = .ok yes

theorem known?_eq_none {questions : List Question} {a b : NodeId} :
    known? questions a b = none ↔
      ∀ q ∈ questions, q.first = a → q.second = b → ∃ e, q.reply = .error e := by
  unfold known?
  rw [List.findSome?_eq_none_iff]
  refine forall₂_congr fun q _ => ?_
  by_cases hnodes : q.first = a ∧ q.second = b
  · rw [if_pos hnodes]
    cases q.reply <;> simp [hnodes, Except.toOption]
  · rw [if_neg hnodes]
    exact iff_of_true rfl fun hfirst hsecond => absurd ⟨hfirst, hsecond⟩ hnodes

theorem AskedOnce.noted {a b : Branch} (h : AskedOnce s.questions) (hreplied : Replied s.questions)
    (hlt : a.node < b.node) (hnew : known? s.questions a.node b.node = none)
    (reply : Except Error Bool) (m : σ) : AskedOnce (s.noted a b reply m).questions where
  nodup := by
    rw [Session.noted, List.map_append, List.map_singleton]
    refine h.nodup.append (List.nodup_singleton _) (List.disjoint_singleton.mpr fun hin => ?_)
    obtain ⟨q, hq, hnodes⟩ := List.mem_map.mp hin
    -- such a question would have been about the same nodes in the same order
    rcases Question.nodes_eq_iff.mp hnodes with ⟨hfirst, hsecond⟩ | ⟨hfirst, hsecond⟩
    · obtain ⟨e, he⟩ := known?_eq_none.mp hnew q hq hfirst hsecond
      obtain ⟨yes, hyes⟩ := hreplied q hq
      rw [he] at hyes
      cases hyes
    · have hq := h.lt q hq
      rw [hfirst, hsecond] at hq
      exact Nat.lt_asymm hlt hq
  lt := by
    intro q hq
    rcases List.mem_append.mp hq with hq | hq
    · exact h.lt q hq
    · rw [List.mem_singleton.mp hq]
      exact hlt

/-- Whatever has been asked has been asked once, however a session ends. -/
theorem rounds_asked_once (oracle : Oracle σ) (limit : Nat) (report : Report)
    (hs : AskedOnce s.questions ∧ Replied s.questions) :
    AskedOnce (stateOf (EStateM.run (rounds oracle limit report) s)).questions := by
  have hmaintains : Maintains (fun s => AskedOnce s.questions ∧ Replied s.questions)
      (fun s => AskedOnce s.questions) (rounds oracle limit report) := by
    refine maintains_rounds (fun change s hs => ?_) (fun guards s hs => ?_)
      (fun g set hset pair hpair found => ?_) limit report
    · rw [update_run]
      cases change.run s.graph with
      | ok a g => exact hs
      | error e g => exact hs.1
    · rw [consult_run]
      cases (oracle.mergeGuards guards).run s.memory with
      | ok a m => exact hs
      | error e m => exact hs.1
    · have hlt := pair_lt hset hpair
      refine maintains_weigh (fun s yes m hs hnew _ => ⟨hs.1.noted hs.2 hlt hnew _ m, ?_⟩)
        (fun s e m hs hnew _ => hs.1.noted hs.2 hlt hnew _ m) found
      intro q hq
      rcases List.mem_append.mp hq with hq | hq
      · exact hs.2 q hq
      · exact ⟨yes, by rw [List.mem_singleton.mp hq]⟩
  exact hmaintains.stateOf (fun _ h => h.1) hs

/-! ## The round of a question -/

/-- A session of at most so many rounds starts one of them with `s₁`. -/
inductive StartsRound (oracle : Oracle σ) (s₁ : Session σ) : Nat → Session σ → Prop
  | now {limit : Nat} : StartsRound oracle s₁ (limit + 1) s₁
  | later {limit : Nat} {s s' : Session σ} {report report' : Report}
      (round : EStateM.run (round oracle report) s = .ok (report', true) s')
      (rest : StartsRound oracle s₁ limit s') : StartsRound oracle s₁ (limit + 1) s

/-- A question that is new after a round has been put about a split that qualified when the
round began. -/
theorem discover_all_asks (oracle : Oracle σ) (s : Session σ) :
    ∀ q ∈ (stateOf (EStateM.run (s.graph.branchSets.mapM (discover oracle)) s)).questions,
      q ∈ s.questions ∨ ∃ set ∈ s.graph.branchSets, ∃ a b, q.Of set a b := by
  let I : Session σ → Prop := fun s' => ∀ q ∈ s'.questions,
    q ∈ s.questions ∨ ∃ set ∈ s.graph.branchSets, ∃ a b, q.Of set a b
  have hmaintains : Maintains I I (s.graph.branchSets.mapM (discover oracle)) := by
    refine maintains_discover_all fun set hset pair hpair => ?_
    obtain ⟨a, b⟩ := pair
    obtain ⟨ha, hb⟩ := mem_of_mem_pairs hpair
    have hnoted : ∀ (s' : Session σ) reply m, I s' → I (s'.noted a b reply m) := by
      intro s' reply m hs' q hq
      rcases List.mem_append.mp hq with hq | hq
      · exact hs' q hq
      · rw [List.mem_singleton.mp hq]
        exact Or.inr ⟨set, hset, a, b, ha, hb, pair_lt hset hpair, rfl, rfl, rfl, rfl⟩
    exact maintains_weigh (fun s' yes m hs' _ _ => hnoted s' _ m hs')
      fun s' e m hs' _ _ => hnoted s' _ m hs'
  exact hmaintains.stateOf (fun _ h => h) fun _ => Or.inl

/-- Every new question of a session is new after one of its rounds. -/
theorem exists_startsRound {limit : Nat} {report : Report} {q : Question}
    (hq : q ∈ (stateOf (EStateM.run (rounds oracle limit report) s)).questions) :
    q ∈ s.questions ∨ ∃ s₁, StartsRound oracle s₁ limit s ∧ q ∉ s₁.questions ∧
      q ∈ (stateOf (EStateM.run (s₁.graph.branchSets.mapM (discover oracle)) s₁)).questions := by
  induction limit generalizing s report with
  | zero => exact Or.inl hq
  | succ limit ih =>
    have hlog := round_log oracle report s
    have hround : q ∈ (stateOf (EStateM.run (round oracle report) s)).questions →
        q ∈ s.questions ∨ ∃ s₁, StartsRound oracle s₁ (limit + 1) s ∧ q ∉ s₁.questions ∧
          q ∈ (stateOf (EStateM.run (s₁.graph.branchSets.mapM (discover oracle)) s₁)).questions :=
      fun hq => or_iff_not_imp_left.mpr fun hnew => ⟨s, .now, hnew, hlog ▸ hq⟩
    rw [rounds_succ] at hq
    cases hrun : EStateM.run (round oracle report) s with
    | error e s₁ =>
      rw [hrun] at hq hround
      exact hround hq
    | ok r s₁ =>
      obtain ⟨report₁, more⟩ := r
      rw [hrun] at hq hround
      cases more with
      | false => exact hround hq
      | true =>
        rcases ih hq with hq | ⟨s₂, hstarts, hnew, hasked⟩
        · exact hround hq
        · exact Or.inr ⟨s₂, .later hrun hstarts, hnew, hasked⟩

/-! ## Counting -/

theorem weigh_counts (found : Compatibility × Nat) (pair : Branch × Branch) :
    Ensures s (weigh oracle found pair) fun found' s' =>
      found'.2 + s.questions.length = found.2 + s'.questions.length := by
  obtain ⟨a, b⟩ := pair
  intro found' s' hrun
  rw [weigh_run] at hrun
  cases hknown : known? s.questions a.node b.node with
  | some yes =>
    rw [hknown] at hrun
    cases hrun
    rfl
  | none =>
    rw [hknown] at hrun
    cases hans : (oracle.mergeable a.config b.config).run s.memory with
    | error e m =>
      simp only [hans] at hrun
      cases hrun
    | ok yes m =>
      simp only [hans] at hrun
      cases hrun
      simp only [Session.noted, List.length_append, List.length_singleton]
      omega

theorem discover_counts (set : BranchSet) :
    Ensures s (discover oracle set) fun r s' =>
      r.2 + s.questions.length = s'.questions.length := by
  refine Ensures.bind (x := compatibility oracle set)
    (Q := fun found s' => found.2 + s.questions.length = s'.questions.length) ?_
    fun found s' hfound => .pure hfound
  refine Ensures.foldlM (fun found s' pair _ hfound found' s'' hrun => ?_) (Nat.zero_add _)
  have hcount := weigh_counts found pair found' s'' hrun
  omega

theorem discover_all_counts (sets : List BranchSet) (n : Nat) :
    Ensures s (sets.mapM (discover oracle)) fun found s' =>
      found.foldl (fun n r => n + r.2) n + s.questions.length = n + s'.questions.length := by
  induction sets generalizing s n with
  | nil => exact .pure rfl
  | cons set sets ih =>
    rw [List.mapM_cons]
    refine (discover_counts set).bind fun r s₁ hr => ?_
    refine (ih (s := s₁) (n + r.2)).bind fun found s₂ hfound => .pure ?_
    rw [List.foldl_cons]
    omega

theorem round_count {report : Report} {r : Report × Bool}
    (hs : report.oracleCalls = s.questions.length)
    (hrun : EStateM.run (round oracle report) s = .ok r s') :
    r.1.oracleCalls = s'.questions.length := by
  have hlog := round_log oracle report s
  have hends := round_ends oracle report s
  rw [hrun] at hlog hends
  have hasked : ∀ {found : List (Plan × Nat)} {s₁ : Session σ},
      EStateM.run (s.graph.branchSets.mapM (discover oracle)) s = .ok found s₁ →
      (report.asked found).oracleCalls = s'.questions.length := by
    intro found s₁ hfound
    rw [hfound] at hlog
    have hcount := discover_all_counts s.graph.branchSets report.oracleCalls found s₁ hfound
    change s'.questions = s₁.questions at hlog
    rw [hlog]
    change found.foldl (fun n f => n + f.2) report.oracleCalls = s₁.questions.length
    omega
  cases hends with
  | idle hfound _ => exact hasked hfound
  | done hfound _ _ _ => exact hasked hfound

theorem rounds_count {limit : Nat} {report report' : Report}
    (hs : report.oracleCalls = s.questions.length)
    (hrun : EStateM.run (rounds oracle limit report) s = .ok report' s') :
    report'.oracleCalls = s'.questions.length := by
  induction limit generalizing s report with
  | zero =>
    cases hrun
    exact hs
  | succ limit ih =>
    rw [rounds_succ] at hrun
    cases hround : EStateM.run (round oracle report) s with
    | error e s₁ =>
      rw [hround] at hrun
      cases hrun
    | ok r s₁ =>
      have hcount := round_count hs hround
      obtain ⟨report₁, more⟩ := r
      rw [hround] at hrun
      cases more with
      | false =>
        cases hrun
        exact hcount
      | true => exact ih hcount hrun

/-! ## Answers recorded at the end of a round -/

/-- Decides one pair of branches by a log that answers are not added to. -/
def weighFrom (oracle : Oracle σ) (log : List Question) (found : Compatibility × Nat)
    (pair : Branch × Branch) : Merging σ (Compatibility × Nat) := do
  let (a, b) := pair
  let (together, asked) ← match known? log a.node b.node with
    | some yes => pure (yes, 0)
    | none => do pure (← ask oracle a b, 1)
  return (if together then found.1.connect a.node b.node else found.1, found.2 + asked)

/-- Finds the cliques of a split by a log that answers are not added to. -/
def discoverFrom (oracle : Oracle σ) (log : List Question) (set : BranchSet) :
    Merging σ (Plan × Nat) := do
  let (graph, asked) ← (pairs set.branches).foldlM (weighFrom oracle log)
    (.ofVertices (set.branches.map (·.node)), 0)
  return ({ set, cliques := graph.maximalCliques 2 }, asked)

/-- The names of a pair of branches. -/
def named (pair : Branch × Branch) : NodeId × NodeId := (pair.1.node, pair.2.node)

theorem pairs_named_nodup {bs : List Branch} (h : (bs.map (·.node)).Nodup) :
    ((pairs bs).map named).Nodup := by
  induction bs with
  | nil => exact .nil
  | cons b bs ih =>
    rw [List.map_cons] at h
    obtain ⟨hb, hbs⟩ := List.nodup_cons.mp h
    have hfirst : (bs.map (b, ·)).map named = (bs.map (·.node)).map (b.node, ·) := by
      rw [List.map_map, List.map_map]
      rfl
    unfold pairs
    rw [List.map_append, hfirst]
    refine (hbs.map fun _ _ he => (Prod.mk.inj he).2).append (ih hbs) ?_
    intro name hname hrest
    obtain ⟨x, -, rfl⟩ := List.mem_map.mp hname
    obtain ⟨⟨c, d⟩, hcd, he⟩ := List.mem_map.mp hrest
    obtain ⟨he, -⟩ := Prod.mk.inj he
    exact hb (he ▸ List.mem_map_of_mem (mem_of_mem_pairs hcd).1)

/-- No two nodes are branches of two splits that qualify. -/
theorem branchSets_named_nodup (g : Graph) :
    ((g.branchSets.flatMap fun set => pairs set.branches).map named).Nodup := by
  rw [List.map_flatMap]
  refine List.nodup_flatMap.mpr ⟨fun set hset => ?_, ?_⟩
  · obtain ⟨cases, hq⟩ := Graph.qualified_of_mem hset
    exact pairs_named_nodup hq.nodes_nodup
  · refine (branchSets_sources g).imp_of_mem fun {set other} hset hother hne name hname hin => ?_
    obtain ⟨cases, hq⟩ := Graph.qualified_of_mem hset
    obtain ⟨cases', hq'⟩ := Graph.qualified_of_mem hother
    obtain ⟨⟨a, b⟩, hab, rfl⟩ := List.mem_map.mp hname
    obtain ⟨⟨c, d⟩, hcd, he⟩ := List.mem_map.mp hin
    obtain ⟨he, -⟩ := Prod.mk.inj he
    -- a branch belongs to one split only
    have howner := (hq.branch a (mem_of_mem_pairs hab).1).owners
    have howner' := (hq'.branch c (mem_of_mem_pairs hcd).1).owners
    rw [he, howner] at howner'
    exact hne (List.singleton_injective howner')

/-- Beside a log only pairs have been asked about that are not to come. -/
def Apart (log : List Question) (ps : List (Branch × Branch)) (s : Session σ) : Prop :=
  ∃ asked, s.questions = log ++ asked ∧ ∀ q ∈ asked, (q.first, q.second) ∉ ps.map named

section From

variable {log : List Question} {ps more : List (Branch × Branch)}

theorem Apart.known?_eq {pair : Branch × Branch} (h : Apart log (pair :: ps) s) :
    known? s.questions pair.1.node pair.2.node = known? log pair.1.node pair.2.node := by
  obtain ⟨asked, hlog, hapart⟩ := h
  have hnone : known? asked pair.1.node pair.2.node = none := by
    refine known?_eq_none.mpr fun q hq hfirst hsecond => absurd ?_ (hapart q hq)
    rw [hfirst, hsecond]
    exact List.mem_cons_self
  unfold known? at hnone ⊢
  rw [hlog, List.findSome?_append, hnone, Option.or_none]

theorem weigh_eq_weighFrom {pair : Branch × Branch} (h : Apart log (pair :: ps) s)
    (found : Compatibility × Nat) :
    EStateM.run (weigh oracle found pair) s = EStateM.run (weighFrom oracle log found pair) s := by
  obtain ⟨a, b⟩ := pair
  have hknown := h.known?_eq
  cases hanswer : known? log a.node b.node with
  | none => simp only [weigh, weighFrom, EStateM.run_bind, EStateM.run_get, hknown, hanswer]
  | some yes => simp only [weigh, weighFrom, EStateM.run_bind, EStateM.run_get, hknown, hanswer]

theorem Apart.weighed {pair : Branch × Branch} (h : Apart log (pair :: ps) s)
    (hnd : ((pair :: ps).map named).Nodup) (found : Compatibility × Nat) :
    Ensures s (weigh oracle found pair) fun _ s' => Apart log ps s' := by
  obtain ⟨a, b⟩ := pair
  obtain ⟨asked, hlog, hapart⟩ := h
  rw [List.map_cons] at hnd hapart
  intro found' s' hrun
  obtain ⟨yes, -, ⟨-, rfl⟩ | ⟨m, -, rfl⟩⟩ := weigh_ok hrun
  · exact ⟨asked, hlog, fun q hq hin => hapart q hq (List.mem_cons_of_mem _ hin)⟩
  · refine ⟨asked ++ [⟨a.node, b.node, a.config, b.config, .ok yes⟩], ?_, fun q hq => ?_⟩
    · rw [← List.append_assoc, ← hlog]
    · rcases List.mem_append.mp hq with hq | hq
      · exact fun hin => hapart q hq (List.mem_cons_of_mem _ hin)
      · rw [List.mem_singleton.mp hq]
        exact (List.nodup_cons.mp hnd).1

/-- Pairs of different names are weighed alike by the log and by what it was before
them. -/
theorem weigh_all_eq (oracle : Oracle σ) (h : Apart log (ps ++ more) s)
    (hnd : ((ps ++ more).map named).Nodup) (found : Compatibility × Nat) :
    EStateM.run (ps.foldlM (weigh oracle) found) s =
        EStateM.run (ps.foldlM (weighFrom oracle log) found) s ∧
      Ensures s (ps.foldlM (weigh oracle) found) fun _ s' => Apart log more s' := by
  induction ps generalizing s found with
  | nil => exact ⟨rfl, .pure h⟩
  | cons pair ps ih =>
    have hweighed : Ensures s (weigh oracle found pair) fun _ s' => Apart log (ps ++ more) s' :=
      h.weighed hnd found
    have hrest : ((ps ++ more).map named).Nodup := (List.nodup_cons.mp hnd).2
    rw [List.foldlM_cons, List.foldlM_cons]
    refine ⟨?_, hweighed.bind fun found' s' hs' => (ih hs' hrest found').2⟩
    rw [EStateM.run_bind, EStateM.run_bind, ← weigh_eq_weighFrom h found]
    cases hrun : EStateM.run (weigh oracle found pair) s with
    | error e s' => rfl
    | ok found' s' => exact (ih (hweighed found' s' hrun) hrest found').1

theorem discover_eq (oracle : Oracle σ) {set : BranchSet}
    (h : Apart log (pairs set.branches ++ more) s)
    (hnd : ((pairs set.branches ++ more).map named).Nodup) :
    EStateM.run (discover oracle set) s = EStateM.run (discoverFrom oracle log set) s ∧
      Ensures s (discover oracle set) fun _ s' => Apart log more s' := by
  obtain ⟨heq, hapart⟩ := weigh_all_eq oracle h hnd
    (.ofVertices (set.branches.map (·.node)), 0)
  refine ⟨?_, Ensures.bind (x := compatibility oracle set) hapart fun _ _ hs' => .pure hs'⟩
  simp only [discover, discoverFrom, compatibility, EStateM.run_bind, heq]

theorem discover_all_eq {sets : List BranchSet}
    (h : Apart log (sets.flatMap fun set => pairs set.branches) s)
    (hnd : ((sets.flatMap fun set => pairs set.branches).map named).Nodup) :
    EStateM.run (sets.mapM (discover oracle)) s =
      EStateM.run (sets.mapM (discoverFrom oracle log)) s := by
  induction sets generalizing s with
  | nil => rfl
  | cons set sets ih =>
    rw [List.flatMap_cons] at h hnd
    obtain ⟨heq, hapart⟩ := discover_eq oracle h hnd
    rw [List.map_append] at hnd
    rw [List.mapM_cons, List.mapM_cons, EStateM.run_bind, EStateM.run_bind, ← heq]
    cases hrun : EStateM.run (discover oracle set) s with
    | error e s' => rfl
    | ok r s' =>
      have hrest := ih (hapart r s' hrun) hnd.of_append_right
      simp only [EStateM.run_bind, hrest]

end From

/-- A round may record its answers when all its questions have been put. -/
theorem discovers_by_log (oracle : Oracle σ) (s : Session σ) :
    EStateM.run (s.graph.branchSets.mapM (discover oracle)) s =
      EStateM.run (s.graph.branchSets.mapM (discoverFrom oracle s.questions)) s :=
  discover_all_eq ⟨[], (List.append_nil _).symm, by simp⟩ (branchSets_named_nodup s.graph)

/-! ## What an oracle hears -/

/-- The pairs of configurations that questions are about. -/
def heard (questions : List Question) : List (Config × Config) :=
  questions.map fun q => (q.firstConfig, q.secondConfig)

theorem recording_hears (oracle : Oracle σ) (a b : Config) (m : σ × List (Config × Config)) :
    (stateOf ((oracle.recording.mergeable a b).run m)).2 = m.2 ++ [(a, b)] := by
  rw [recording_mergeable_run]
  cases (oracle.mergeable a b).run m.1 <;> rfl

theorem recording_guards_unheard (oracle : Oracle σ) (guards : List Effect)
    (m : σ × List (Config × Config)) :
    (stateOf ((oracle.recording.mergeGuards guards).run m)).2 = m.2 := by
  rw [recording_mergeGuards_run]
  cases (oracle.mergeGuards guards).run m.1 <;> rfl

/-- The log of a session has what the oracle has been asked, call by call. -/
theorem rounds_heard (oracle : Oracle σ) (limit : Nat) (report : Report)
    {s : Session (σ × List (Config × Config))} (hs : s.memory.2 = heard s.questions) :
    let s' := stateOf (EStateM.run (rounds oracle.recording limit report) s)
    s'.memory.2 = heard s'.questions := by
  let I : Session (σ × List (Config × Config)) → Prop := fun s => s.memory.2 = heard s.questions
  have hnoted : ∀ (s : Session (σ × List (Config × Config))) (a b : Branch) reply m, I s →
      m.2 = s.memory.2 ++ [(a.config, b.config)] → I (s.noted a b reply m) := by
    intro s a b reply m hs hm
    change m.2 = heard (s.questions ++ _)
    rw [hm, heard, List.map_append, hs]
    rfl
  have hmaintains : Maintains I I (rounds oracle.recording limit report) := by
    refine maintains_rounds (fun change s hs => ?_) (fun guards s hs => ?_)
      (fun g set _ pair _ found => ?_) limit report
    · rw [update_run]
      cases change.run s.graph <;> exact hs
    · have hkept := recording_guards_unheard oracle guards s.memory
      rw [consult_run]
      cases hrun : (oracle.recording.mergeGuards guards).run s.memory with
      | ok guard m =>
        rw [hrun] at hkept
        exact hkept.trans hs
      | error e m =>
        rw [hrun] at hkept
        exact hkept.trans hs
    · obtain ⟨a, b⟩ := pair
      refine maintains_weigh (fun s yes m hs _ hrun => hnoted s a b _ m hs ?_)
        (fun s e m hs _ hrun => hnoted s a b _ m hs ?_) found
      all_goals
        have hheard := recording_hears oracle a.config b.config s.memory
        rw [hrun] at hheard
        exact hheard
  exact hmaintains.stateOf (fun _ h => h) hs

end Merging

open Merging

/-- Whatever a session does and however it ends, the log has each call of the oracle about
two configurations, as the same session shows with an oracle that notes its calls. No two
are about the same nodes. Each is put in a round about two branches of a split that
qualifies when the round begins, as they then are, and the answers of a round are of no use
in it. A session that ends well has counted its calls. -/
theorem Graph.merging_asks_once (g : Graph) {σ : Type} (oracle : Oracle σ) (memory : σ)
    (limit : Nat) :
    let s : Session σ := { graph := g, memory := memory }
    let r := EStateM.run (Merging.run oracle limit) s
    let recorded := EStateM.run (Merging.run oracle.recording limit)
      { graph := g, memory := (memory, []) }
    let log := (stateOf r).questions
    let calls := (stateOf recorded).memory.2
    unrecorded recorded = r ∧ calls = heard log ∧ (log.map Question.nodes).Nodup ∧
    (∀ q ∈ log, ∃ s₁, StartsRound oracle s₁ limit s ∧ q ∉ s₁.questions ∧
      q ∈ (stateOf (EStateM.run (s₁.graph.branchSets.mapM (discover oracle)) s₁)).questions ∧
      ∃ set cases a b, Qualified s₁.graph set cases ∧ q.Of set a b ∧
        s₁.graph.nodes.get? q.first = some q.firstConfig ∧
        s₁.graph.nodes.get? q.second = some q.secondConfig) ∧
    (∀ s₁, StartsRound oracle s₁ limit s →
      EStateM.run (s₁.graph.branchSets.mapM (discover oracle)) s₁ =
        EStateM.run (s₁.graph.branchSets.mapM (discoverFrom oracle s₁.questions)) s₁) ∧
    ∀ report s', r = .ok report s' → report.oracleCalls = calls.length := by
  intro s r recorded log calls
  have hsame : unrecorded recorded = r :=
    records_rounds oracle limit {} { graph := g, memory := (memory, []) }
  have hlog : log = (stateOf recorded).questions := by
    rw [← (stateOf recorded).unrecorded_questions, ← stateOf_unrecorded, hsame]
  have hcalls : calls = heard log := by
    rw [hlog]
    exact rounds_heard oracle limit {} (s := { graph := g, memory := (memory, []) }) rfl
  have hstart : AskedOnce s.questions ∧ Replied s.questions :=
    ⟨⟨.nil, fun q hq => nomatch hq⟩, fun q hq => nomatch hq⟩
  refine ⟨hsame, hcalls, (rounds_asked_once oracle limit {} hstart).nodup, fun q hq => ?_,
    fun s₁ _ => discovers_by_log oracle s₁, fun report s' hrun => ?_⟩
  · obtain ⟨s₁, hstarts, hnew, hasked⟩ := (exists_startsRound hq).resolve_left (by simp [s])
    obtain ⟨set, hset, a, b, hof⟩ := (discover_all_asks oracle s₁ q hasked).resolve_left hnew
    obtain ⟨cases, hqual⟩ := Graph.qualified_of_mem hset
    refine ⟨s₁, hstarts, hnew, hasked, set, cases, a, b, hqual, hof, ?_, ?_⟩
    · rw [hof.first, hof.firstConfig]
      exact (hqual.branch a hof.first_mem).config
    · rw [hof.second, hof.secondConfig]
      exact (hqual.branch b hof.second_mem).config
  · have hcount := rounds_count (s := s) rfl hrun
    have hend : log = s'.questions := congrArg (fun r => (stateOf r).questions) hrun
    rw [hcalls, hend, heard, List.length_map, hcount]

end StateGraph
