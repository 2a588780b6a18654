-- The search for cliques finds each maximal clique once and nothing else. Each
-- call of `grow` keeps the invariant `Stage`: candidates and excluded nodes
-- together are all nodes that go with the whole current clique.
import StateGraph.Compatibility
import Mathlib.Data.Finset.Basic
import Mathlib.Data.List.Nodup
import Mathlib.Data.List.Pairwise
import Mathlib.Order.Minimal

namespace StateGraph

namespace Compatibility

variable {g : Compatibility} {current candidates excluded : List NodeId} {v : NodeId}

/-! ## What the search looks for -/

/-- Every two members of a set of nodes go together. -/
def Clique (g : Compatibility) (K : Finset NodeId) : Prop :=
  (∀ v ∈ K, v ∈ g.vertices) ∧ ∀ a ∈ K, ∀ b ∈ K, a ≠ b → g.connected a b = true

/-- A clique that no other node can join. -/
def MaximalClique (g : Compatibility) (K : Finset NodeId) : Prop := Maximal g.Clique K

/-- A set holds all of `current` and otherwise only candidates. -/
def Between (current candidates : List NodeId) (K : Finset NodeId) : Prop :=
  (∀ v ∈ current, v ∈ K) ∧ ∀ v ∈ K, v ∈ current ∨ v ∈ candidates

/-- A node that goes with every member of a maximal clique is a member. -/
theorem MaximalClique.mem {K : Finset NodeId} (h : g.MaximalClique K) (hv : v ∈ g.vertices)
    (hall : ∀ u ∈ K, u ≠ v → g.connected u v = true) : v ∈ K := by
  have hins : g.Clique (insert v K) := by
    refine ⟨?_, ?_⟩
    · intro u hu
      rcases Finset.mem_insert.mp hu with rfl | hu
      · exact hv
      · exact h.prop.1 u hu
    · intro a ha b hb hab
      rcases Finset.mem_insert.mp ha with hav | haK
      · rcases Finset.mem_insert.mp hb with hbv | hbK
        · exact absurd (hav.trans hbv.symm) hab
        · rw [hav, connected_comm]
          exact hall b hbK (fun he => hab (hav.trans he.symm))
      · rcases Finset.mem_insert.mp hb with hbv | hbK
        · rw [hbv]
          exact hall a haK (fun he => hab (he.trans hbv.symm))
        · exact h.prop.2 a haK b hbK hab
  exact h.le_of_ge hins (Finset.subset_insert v K) (Finset.mem_insert_self v K)

/-! ## The invariant of a call -/

/-- What holds whenever the search goes on from a clique. -/
structure Stage (g : Compatibility) (current candidates excluded : List NodeId) : Prop where
  known : ∀ v ∈ current, v ∈ g.vertices
  together : current.Pairwise fun a b => g.connected a b = true
  beside : ∀ v, v ∈ candidates ∨ v ∈ excluded ↔
    v ∈ g.vertices ∧ ∀ u ∈ current, g.connected u v = true
  once : candidates.Nodup

theorem Stage.not_mem_current (h : Stage g current candidates excluded)
    (hv : v ∈ candidates ∨ v ∈ excluded) : v ∉ current := by
  intro hc
  have := ((h.beside v).mp hv).2 v hc
  simp at this

theorem Stage.nodup (h : Stage g current candidates excluded) : current.Nodup := by
  refine h.together.imp ?_
  intro a b hab he
  subst he
  simp at hab

/-- The search starts with all nodes as candidates. -/
theorem stage_start (g : Compatibility) : Stage g [] g.vertices.keys [] where
  known := by simp
  together := .nil
  beside := by simp [Table.mem_keys]
  once := g.vertices.keys_nodup

theorem mem_among {ids : List NodeId} {u : NodeId} :
    u ∈ g.among v ids ↔ u ∈ ids ∧ g.connected v u = true := by
  simp [among]

/-- A candidate joins the clique. -/
theorem Stage.take (h : Stage g current candidates excluded) (hv : v ∈ candidates) :
    Stage g (v :: current) (g.among v candidates) (g.among v excluded) where
  known := by
    intro u hu
    rcases List.mem_cons.mp hu with rfl | hu
    · exact ((h.beside u).mp (Or.inl hv)).1
    · exact h.known u hu
  together := by
    refine List.pairwise_cons.mpr ⟨?_, h.together⟩
    intro u hu
    rw [connected_comm]
    exact ((h.beside v).mp (Or.inl hv)).2 u hu
  beside := by
    intro u
    rw [mem_among, mem_among, ← or_and_right, h.beside u]
    simp only [List.mem_cons, forall_eq_or_imp]
    tauto
  once := h.once.filter _

/-- A candidate is done with. -/
theorem Stage.exclude (h : Stage g current candidates excluded) (hv : v ∈ candidates) :
    Stage g current (candidates.filter (· != v)) (v :: excluded) where
  known := h.known
  together := h.together
  beside := by
    intro u
    rw [← h.beside u, List.mem_filter, List.mem_cons]
    by_cases hu : u = v
    · subst hu; simp [hv]
    · simp [hu]
  once := h.once.filter _

/-! ## Finding each set once -/

/-- The lists found are, as sets, those with a property, each once. -/
structure Finds (found : List (List NodeId)) (P : Finset NodeId → Prop) : Prop where
  nodup : ∀ c ∈ found, c.Nodup
  once : (found.map List.toFinset).Nodup
  iff : ∀ K, K ∈ found.map List.toFinset ↔ P K

theorem Finds.congr {found : List (List NodeId)} {P Q : Finset NodeId → Prop} (h : Finds found P)
    (hpq : ∀ K, P K ↔ Q K) : Finds found Q :=
  ⟨h.nodup, h.once, fun K => (h.iff K).trans (hpq K)⟩

theorem finds_nil {P : Finset NodeId → Prop} (h : ∀ K, ¬ P K) : Finds [] P :=
  ⟨by simp, by simp, fun K => by simp [h K]⟩

theorem Finds.append {a b : List (List NodeId)} {P Q : Finset NodeId → Prop} (ha : Finds a P)
    (hb : Finds b Q) (hpq : ∀ K, P K → ¬ Q K) : Finds (a ++ b) fun K => P K ∨ Q K where
  nodup := by
    intro c hc
    rcases List.mem_append.mp hc with hc | hc
    · exact ha.nodup c hc
    · exact hb.nodup c hc
  once := by
    rw [List.map_append]
    refine ha.once.append hb.once ?_
    intro K hKa hKb
    exact hpq K ((ha.iff K).mp hKa) ((hb.iff K).mp hKb)
  iff := by
    intro K
    rw [List.map_append, List.mem_append, ha.iff, hb.iff]

/-! ## The sweep over the choices -/

/-- A clique that holds a candidate holds besides only nodes that go with it. -/
theorem between_take {K : Finset NodeId} (hK : g.Clique K) (hv : v ∈ candidates) :
    Between (v :: current) (g.among v candidates) K ↔ Between current candidates K ∧ v ∈ K := by
  constructor
  · rintro ⟨hin, hout⟩
    refine ⟨⟨fun u hu => hin u (List.mem_cons_of_mem _ hu), ?_⟩, hin v List.mem_cons_self⟩
    intro u hu
    rcases hout u hu with h | h
    · rcases List.mem_cons.mp h with rfl | h
      · exact Or.inr hv
      · exact Or.inl h
    · exact Or.inr (mem_among.mp h).1
  · rintro ⟨⟨hin, hout⟩, hvK⟩
    refine ⟨List.forall_mem_cons.mpr ⟨hvK, hin⟩, ?_⟩
    intro u hu
    by_cases huv : u = v
    · exact Or.inl (List.mem_cons.mpr (Or.inl huv))
    · rcases hout u hu with h | h
      · exact Or.inl (List.mem_cons_of_mem _ h)
      · exact Or.inr (mem_among.mpr ⟨h, hK.2 v hvK u hu (Ne.symm huv)⟩)

/-- Without a candidate, only the sets that do not hold it are left. -/
theorem between_exclude {K : Finset NodeId} (hv : v ∉ current) :
    Between current (candidates.filter (· != v)) K ↔ Between current candidates K ∧ v ∉ K := by
  constructor
  · rintro ⟨hin, hout⟩
    refine ⟨⟨hin, fun u hu => (hout u hu).imp_right fun h => (List.mem_filter.mp h).1⟩, ?_⟩
    intro hvK
    rcases hout v hvK with h | h
    · exact hv h
    · simp at h
  · rintro ⟨⟨hin, hout⟩, hvK⟩
    refine ⟨hin, fun u hu => (hout u hu).imp_right fun h => ?_⟩
    have huv : u ≠ v := fun he => hvK (he ▸ hu)
    exact List.mem_filter.mpr ⟨h, by simpa using huv⟩

/-- A sweep whose visits find the maximal cliques with the node visited finds
those with some node of the sweep. -/
theorem sweep_finds {visit : NodeId → List NodeId → List NodeId → List (List NodeId)} {n : Nat}
    (hvisit : ∀ v candidates excluded, Stage g current candidates excluded → v ∈ candidates →
      candidates.length ≤ n → Finds (visit v candidates excluded) fun K =>
        g.MaximalClique K ∧ Between current candidates K ∧ v ∈ K)
    {todo : List NodeId} (hstage : Stage g current candidates excluded)
    (hn : candidates.length ≤ n) (hsub : ∀ v ∈ todo, v ∈ candidates) (hnd : todo.Nodup) :
    Finds (sweep visit todo candidates excluded) fun K =>
      g.MaximalClique K ∧ Between current candidates K ∧ ∃ v ∈ todo, v ∈ K := by
  induction todo generalizing candidates excluded with
  | nil => exact finds_nil (by simp)
  | cons v rest ih =>
    obtain ⟨hvrest, hrest⟩ := List.nodup_cons.mp hnd
    have hv := hsub v List.mem_cons_self
    have hvc := hstage.not_mem_current (Or.inl hv)
    have hlater := ih (hstage.exclude hv) (Nat.le_trans (List.length_filter_le _ _) hn)
      (fun u hu => List.mem_filter.mpr ⟨hsub u (List.mem_cons_of_mem _ hu), by
        have : u ≠ v := fun he => hvrest (he ▸ hu)
        simpa using this⟩) hrest
    -- the visit takes the cliques with `v`, the rest of the sweep those without
    refine ((hvisit v _ _ hstage hv hn).append hlater ?_).congr ?_
    · rintro K ⟨_, _, hvK⟩ ⟨_, hbet, _⟩
      exact ((between_exclude hvc).mp hbet).2 hvK
    · intro K
      rw [between_exclude hvc]
      simp only [List.mem_cons, exists_eq_or_imp]
      tauto

/-! ## The choices suffice -/

theorem betterPivot_mem {ids : List NodeId} {a b : NodeId} (ha : a ∈ ids) (hb : b ∈ ids) :
    g.betterPivot candidates a b ∈ ids := by
  unfold betterPivot
  simp only
  split
  · exact hb
  · split
    · exact ha
    · rcases min_choice a b with h | h <;> rw [h]
      · exact ha
      · exact hb

theorem pivot_mem {ids among : List NodeId} {first : NodeId} (hfirst : first ∈ ids)
    (hsub : ∀ v ∈ among, v ∈ ids) : among.foldl (g.betterPivot candidates) first ∈ ids := by
  induction among generalizing first with
  | nil => exact hfirst
  | cons v rest ih =>
    exact ih (betterPivot_mem hfirst (hsub v List.mem_cons_self))
      (fun u hu => hsub u (List.mem_cons_of_mem _ hu))

/-- A maximal clique holds one of the choices: otherwise the pivot would go
with all of its members. -/
theorem exists_choice {first : NodeId} (h : Stage g current candidates excluded)
    (hfirst : first ∈ candidates) {K : Finset NodeId} (hK : g.MaximalClique K)
    (hbet : Between current candidates K) : ∃ v ∈ g.choices first candidates excluded, v ∈ K := by
  have hp : (candidates ++ excluded).foldl (g.betterPivot candidates) first ∈
      candidates ++ excluded := pivot_mem (List.mem_append_left _ hfirst) fun _ hv => hv
  unfold choices
  simp only [List.mem_filter, Bool.not_eq_eq_eq_not, Bool.not_true]
  generalize (candidates ++ excluded).foldl (g.betterPivot candidates) first = pivot at hp
  by_contra hno
  push Not at hno
  have hbeside := (h.beside pivot).mp (List.mem_append.mp hp)
  have hpK : pivot ∈ K := by
    refine hK.mem hbeside.1 ?_
    intro u hu _
    rcases hbet.2 u hu with hc | hc
    · exact hbeside.2 u hc
    · rw [connected_comm]
      exact Bool.not_eq_false _ ▸ fun hf => hno u ⟨hc, hf⟩ hu
  have hpc := (hbet.2 pivot hpK).resolve_left (h.not_mem_current (List.mem_append.mp hp))
  exact hno pivot ⟨hpc, connected_self g pivot⟩ hpK

/-! ## The whole search -/

theorem among_length_lt {ids : List NodeId} (hv : v ∈ ids) : (g.among v ids).length < ids.length := by
  refine Nat.lt_of_le_of_ne (List.length_filter_le _ _) ?_
  intro he
  have := List.filter_eq_self.mp (List.filter_sublist.eq_of_length he) v hv
  simp at this

/-- A clique without candidates is maximal if nothing was excluded, and cannot
become so otherwise. -/
theorem leaf_finds (h : Stage g current [] excluded) :
    Finds (if excluded.isEmpty then [current] else []) fun K =>
      g.MaximalClique K ∧ Between current [] K := by
  have hbet : ∀ K, Between current [] K ↔ K = current.toFinset := by
    intro K
    simp only [Between, List.not_mem_nil, or_false, Finset.ext_iff, List.mem_toFinset]
    exact ⟨fun ⟨h1, h2⟩ v => ⟨h2 v, h1 v⟩, fun h => ⟨fun v => (h v).mpr, fun v => (h v).mp⟩⟩
  cases excluded with
  | nil =>
    have hmax : g.MaximalClique current.toFinset := by
      refine ⟨⟨fun v hv => h.known v (List.mem_toFinset.mp hv), ?_⟩, ?_⟩
      · intro a ha b hb hab
        have hsymm : Std.Symm fun a b => g.connected a b = true :=
          ⟨fun a b hab => by rw [connected_comm]; exact hab⟩
        exact h.together.forall (List.mem_toFinset.mp ha) (List.mem_toFinset.mp hb) hab
      · intro K hK hle v hv
        by_contra hvc
        rw [List.mem_toFinset] at hvc
        have hno := (h.beside v).mpr ⟨hK.1 v hv, fun u hu =>
          hK.2 u (hle (List.mem_toFinset.mpr hu)) v hv fun he => hvc (he ▸ hu)⟩
        simp at hno
    refine ⟨by simpa using h.nodup, by simp, ?_⟩
    intro K
    rw [hbet]
    simp only [List.isEmpty_nil, if_true, List.map_cons, List.map_nil, List.mem_singleton]
    exact ⟨fun he => ⟨he ▸ hmax, he⟩, fun h => h.2⟩
  | cons x rest =>
    refine finds_nil ?_
    rintro K ⟨hK, hb⟩
    have hx := (h.beside x).mp (Or.inr List.mem_cons_self)
    rw [hbet] at hb
    subst hb
    have hxK : x ∈ current.toFinset :=
      hK.mem hx.1 fun u hu _ => hx.2 u (List.mem_toFinset.mp hu)
    exact h.not_mem_current (Or.inr List.mem_cons_self) (List.mem_toFinset.mp hxK)

/-- From any stage on, the search finds the maximal cliques between the current
clique and the candidates, each once. -/
theorem grow_finds {room : Nat} (h : Stage g current candidates excluded)
    (hroom : candidates.length ≤ room) :
    Finds (g.grow room current candidates excluded) fun K =>
      g.MaximalClique K ∧ Between current candidates K := by
  induction room generalizing current candidates excluded with
  | zero =>
    cases candidates with
    | nil => unfold grow; exact leaf_finds h
    | cons first others => simp at hroom
  | succ room ih =>
    cases candidates with
    | nil => unfold grow; exact leaf_finds h
    | cons first others =>
      unfold grow
      simp only
      have hsub : (g.choices first (first :: others) excluded).Sublist (first :: others) :=
        List.filter_sublist
      refine (sweep_finds (n := room + 1) ?_ h hroom ?_ (h.once.sublist hsub)).congr ?_
      · intro v candidates excluded hstage hv hlen
        refine (ih (hstage.take hv) ?_).congr ?_
        · have := among_length_lt (g := g) hv
          omega
        · intro K
          exact and_congr_right fun hK => between_take hK.prop hv
      · exact fun v hv => hsub.mem hv
      · intro K
        constructor
        · exact fun ⟨hK, hbet, _⟩ => ⟨hK, hbet⟩
        -- no maximal clique is lost by leaving out what goes with the pivot
        · exact fun ⟨hK, hbet⟩ => ⟨hK, hbet, exists_choice h List.mem_cons_self hK hbet⟩

/-- The search over all nodes finds the maximal cliques, each once. -/
theorem grow_start_finds (g : Compatibility) :
    Finds (g.grow g.vertices.size [] g.vertices.keys []) g.MaximalClique := by
  refine (grow_finds (stage_start g) (Nat.le_of_eq ?_)).congr ?_
  · simp [Table.keys, Table.size]
  · intro K
    refine ⟨fun h => h.1, fun h => ⟨h, by simp, fun v hv => Or.inr ?_⟩⟩
    exact Table.mem_keys.mpr (h.prop.1 v hv)

end Compatibility

end StateGraph
