-- The maximal cliques of a graph drawn pair by pair. The list has each of them
-- once and nothing else, and stands in one order whatever order the pairs
-- came in.
import StateGraph.Proofs.CliqueSearch
import StateGraph.Proofs.Lookups
import Mathlib.Combinatorics.SimpleGraph.Clique
import Mathlib.Data.Finset.Sort
import Mathlib.Data.Sym.Sym2

namespace StateGraph

namespace Compatibility

/-! ## Putting in order -/

section Ascending

variable {α : Type} [Ord α]

theorem insertAscending_perm (x : α) (xs : List α) : (insertAscending x xs).Perm (x :: xs) := by
  induction xs with
  | nil => exact .refl _
  | cons y ys ih =>
    unfold insertAscending
    split
    · exact .refl _
    · exact (ih.cons y).trans (.swap x y ys)

theorem ascending_perm (xs : List α) : (ascending xs).Perm xs := by
  induction xs with
  | nil => exact .refl _
  | cons x xs ih => exact (insertAscending_perm x _).trans (ih.cons x)

variable [Std.TransOrd α]

theorem insertAscending_pairwise (x : α) {xs : List α}
    (h : xs.Pairwise fun a b => (compare a b).isLE) :
    (insertAscending x xs).Pairwise fun a b => (compare a b).isLE := by
  induction xs with
  | nil => simp [insertAscending]
  | cons y ys ih =>
    obtain ⟨hy, hys⟩ := List.pairwise_cons.mp h
    unfold insertAscending
    split
    · rename_i hxy
      refine List.pairwise_cons.mpr ⟨?_, h⟩
      intro z hz
      rcases List.mem_cons.mp hz with rfl | hz
      · exact hxy
      · exact Std.TransCmp.isLE_trans hxy (hy z hz)
    · rename_i hxy
      refine List.pairwise_cons.mpr ⟨?_, ih hys⟩
      intro z hz
      rcases List.mem_cons.mp ((insertAscending_perm x ys).mem_iff.mp hz) with rfl | hz
      · exact Ordering.isLE_of_eq_lt (Std.OrientedCmp.lt_of_not_isLE hxy)
      · exact hy z hz

theorem ascending_pairwise (xs : List α) :
    (ascending xs).Pairwise fun a b => (compare a b).isLE := by
  induction xs with
  | nil => exact .nil
  | cons x xs ih => exact insertAscending_pairwise x ih

/-- Without repetitions the order is strict. -/
theorem ascending_strict [Std.LawfulEqOrd α] {xs : List α} (h : xs.Nodup) :
    (ascending xs).Pairwise fun a b => compare a b = .lt := by
  have hnd : (ascending xs).Nodup := (ascending_perm xs).nodup_iff.mpr h
  refine ((ascending_pairwise xs).and hnd).imp ?_
  rintro a b ⟨hle, hne⟩
  rcases Ordering.isLE_iff_eq_lt_or_eq_eq.mp hle with h | h
  · exact h
  · exact absurd (Std.LawfulEqOrd.eq_of_compare h) hne

end Ascending

/-- Lists of nodes compare as words do. -/
theorem compare_eq_lt_iff (a b : List NodeId) : compare a b = .lt ↔ a < b := by
  induction a generalizing b with
  | nil => cases b <;> simp
  | cons x xs ih =>
    cases b with
    | nil => simp
    | cons y ys =>
      rw [List.compare_cons_cons, Ordering.then_eq_lt, Nat.compare_eq_lt, Nat.compare_eq_eq, ih,
        List.cons_lt_cons_iff]

/-! ## The list of maximal cliques -/

/-- The list holds a clique as its members in order. -/
theorem mem_maximalCliques {g : Compatibility} {least : Nat} {c : List NodeId} :
    c ∈ g.maximalCliques least ↔
      c.Pairwise (· < ·) ∧ least ≤ c.length ∧ g.MaximalClique c.toFinset := by
  have hfinds := grow_start_finds g
  unfold maximalCliques
  generalize g.grow g.vertices.size [] g.vertices.keys [] = found at hfinds
  simp only [(ascending_perm _).mem_iff, List.mem_map, List.mem_filter, decide_eq_true_eq]
  constructor
  · rintro ⟨d, ⟨hd, hlen⟩, rfl⟩
    have hset : (ascending d).toFinset = d.toFinset :=
      List.toFinset_eq_of_perm _ _ (ascending_perm d)
    refine ⟨?_, ?_, ?_⟩
    · exact (ascending_strict (hfinds.nodup d hd)).imp Nat.compare_eq_lt.mp
    · rw [(ascending_perm d).length_eq]; exact hlen
    · rw [hset]
      exact (hfinds.iff _).mp (List.mem_map_of_mem hd)
  · rintro ⟨hasc, hlen, hmax⟩
    obtain ⟨d, hd, hdc⟩ := List.mem_map.mp ((hfinds.iff _).mpr hmax)
    have hperm : d.Perm c := (List.perm_ext_iff_of_nodup (hfinds.nodup d hd)
      (hasc.imp Nat.ne_of_lt)).mpr fun v => by
        rw [← List.mem_toFinset, hdc, List.mem_toFinset]
    refine ⟨d, ⟨hd, by rw [hperm.length_eq]; exact hlen⟩, ?_⟩
    refine List.Perm.eq_of_pairwise ?_ ((ascending_strict (hfinds.nodup d hd)).imp
      Nat.compare_eq_lt.mp) hasc ((ascending_perm d).trans hperm)
    intro a b _ _ hab hba
    exact absurd hba (Nat.lt_asymm hab)

/-- Two nodes that go together are in a clique that is found. -/
theorem exists_mem_maximalCliques {g : Compatibility} {a b : NodeId} (ha : a ∈ g.vertices)
    (hb : b ∈ g.vertices) (hab : g.connected a b = true) :
    ∃ c ∈ g.maximalCliques 2, a ∈ c ∧ b ∈ c := by
  have hne : a ≠ b := fun he => by simp [he] at hab
  have hpair : g.Clique {a, b} := by
    simp only [Clique, Finset.mem_insert, Finset.mem_singleton, forall_eq_or_imp, forall_eq]
    refine ⟨⟨ha, hb⟩, ⟨fun he => absurd rfl he, fun _ => hab⟩, fun _ => ?_, fun he => absurd rfl he⟩
    rw [connected_comm]
    exact hab
  have hfinite : {K | g.Clique K}.Finite := by
    refine (g.vertices.keys.toFinset.powerset.finite_toSet).subset fun K hK => ?_
    refine Finset.mem_coe.mpr (Finset.mem_powerset.mpr fun v hv => ?_)
    exact List.mem_toFinset.mpr (Table.mem_keys.mpr (hK.1 v hv))
  obtain ⟨K, hK, hmax⟩ := hfinite.exists_le_maximal hpair
  have haK : a ∈ K := hK (by simp)
  have hbK : b ∈ K := hK (by simp)
  refine ⟨K.sort (· ≤ ·), mem_maximalCliques.mpr ⟨K.sortedLT_sort.pairwise, ?_, ?_⟩,
    (Finset.mem_sort _).mpr haK, (Finset.mem_sort _).mpr hbK⟩
  · rw [Finset.length_sort, ← Finset.card_pair hne]
    exact Finset.card_le_card hK
  · rw [Finset.sort_toFinset]
    exact hmax

/-- The cliques stand in the order of words, none twice. -/
theorem maximalCliques_ascending (g : Compatibility) (least : Nat) :
    (g.maximalCliques least).Pairwise (· < ·) := by
  have hfinds := grow_start_finds g
  unfold maximalCliques
  generalize g.grow g.vertices.size [] g.vertices.keys [] = found at hfinds
  refine (ascending_strict ?_).imp (compare_eq_lt_iff _ _).mp
  refine (List.nodup_map_iff_inj_on ?_).mpr ?_
  · exact (List.Nodup.of_map _ hfinds.once).filter _
  · intro c hc d hd hcd
    refine List.inj_on_of_nodup_map hfinds.once (List.mem_filter.mp hc).1
      (List.mem_filter.mp hd).1 ?_
    have hperm := (ascending_perm c).symm.trans (hcd ▸ ascending_perm d)
    exact List.toFinset_eq_of_perm _ _ hperm

theorem eq_of_toFinset_eq {c d : List NodeId} (hc : c.Pairwise (· < ·)) (hd : d.Pairwise (· < ·))
    (h : c.toFinset = d.toFinset) : c = d := by
  have hperm : c.Perm d := (List.perm_ext_iff_of_nodup (hc.imp Nat.ne_of_lt)
    (hd.imp Nat.ne_of_lt)).mpr fun v => by rw [← List.mem_toFinset, h, List.mem_toFinset]
  exact List.Perm.eq_of_pairwise (fun a b _ _ hab hba => absurd hba (Nat.lt_asymm hab)) hc hd hperm

/-- No clique that is found lies in another. -/
theorem eq_of_mem_maximalCliques {g : Compatibility} {least : Nat} {c d : List NodeId}
    (hc : c ∈ g.maximalCliques least) (hd : d ∈ g.maximalCliques least) (h : ∀ v ∈ c, v ∈ d) :
    c = d := by
  obtain ⟨hascending, -, hmax⟩ := mem_maximalCliques.mp hc
  obtain ⟨hascending', -, hmax'⟩ := mem_maximalCliques.mp hd
  refine eq_of_toFinset_eq hascending hascending' (hmax.eq_of_le hmax'.prop fun v hv => ?_)
  exact List.mem_toFinset.mpr (h v (List.mem_toFinset.mp hv))

theorem maximalCliques_nodup (g : Compatibility) (least : Nat) : (g.maximalCliques least).Nodup :=
  (maximalCliques_ascending g least).imp fun {a b} (hab : a < b) (he : a = b) =>
    List.lt_irrefl b (he ▸ hab)

/-- Nodes that all go together are one clique. -/
theorem maximalCliques_complete {g : Compatibility} {ids : List NodeId}
    (hasc : ids.Pairwise (· < ·)) (hlen : 2 ≤ ids.length)
    (hvertices : ∀ v, v ∈ g.vertices ↔ v ∈ ids)
    (hall : ids.Pairwise fun a b => g.connected a b = true) : g.maximalCliques 2 = [ids] := by
  have : Std.Symm fun a b => g.connected a b = true := ⟨fun a b h => (connected_comm g b a).trans h⟩
  have hconnected : ∀ a ∈ ids, ∀ b ∈ ids, a ≠ b → g.connected a b = true := fun a ha b hb hne =>
    hall.forall ha hb hne
  have hclique : g.Clique ids.toFinset := by
    simpa only [Clique, List.mem_toFinset] using ⟨fun v hv => (hvertices v).mpr hv, hconnected⟩
  have hinside : ∀ K, g.Clique K → K ⊆ ids.toFinset := fun K hK v hv =>
    List.mem_toFinset.mpr ((hvertices v).mp (hK.1 v hv))
  have hmem : ∀ c, c ∈ g.maximalCliques 2 ↔ c = ids := by
    intro c
    rw [mem_maximalCliques]
    constructor
    · rintro ⟨hc, -, hmax⟩
      exact eq_of_toFinset_eq hc hasc (hmax.eq_of_le hclique (hinside _ hmax.prop))
    · rintro rfl
      exact ⟨hasc, hlen, hclique, fun K hK _ => hinside K hK⟩
  refine List.perm_singleton.mp ((List.perm_ext_iff_of_nodup (maximalCliques_nodup g 2)
    (List.nodup_singleton _)).mpr fun c => ?_)
  rw [hmem, List.mem_singleton]

/-! ## Graphs drawn pair by pair -/

/-- The graph of some vertices after pairs have been connected one by one. -/
def ofPairs (ids : List NodeId) (ps : List (NodeId × NodeId)) : Compatibility :=
  ps.foldl (fun g p => g.connect p.1 p.2) (ofVertices ids)

theorem mem_vertices {g : Compatibility} {v : NodeId} : v ∈ g.vertices ↔ v ∈ g.adjacency :=
  Table.mem_mapValues

theorem mem_vertices_ofVertices {ids : List NodeId} {v : NodeId} :
    v ∈ (ofVertices ids).vertices ↔ v ∈ ids :=
  mem_vertices.trans (Table.mem_mapValues.trans SortedSet.mem_ofList)

theorem not_connected_ofVertices {ids : List NodeId} {a b : NodeId} :
    (ofVertices ids).connected a b ≠ true :=
  Adjacency.not_mem_beside_alone

theorem mem_vertices_connect {g : Compatibility} {a b v : NodeId} :
    v ∈ (g.connect a b).vertices ↔ v ∈ g.vertices ∨ a ≠ b ∧ (v = a ∨ v = b) := by
  rw [mem_vertices, mem_vertices]
  unfold connect
  split
  · rename_i h
    simp [h]
  · rename_i h
    simp only [Adjacency.link, Table.mem_insert]
    tauto

theorem connected_connect {g : Compatibility} {a b x y : NodeId} :
    (g.connect a b).connected x y = true ↔ g.connected x y = true ∨
      (a ≠ b ∧ ((x = a ∧ y = b) ∨ (x = b ∧ y = a))) := by
  rw [connected_iff, connected_iff]
  unfold connect
  split
  · rename_i h
    simp [h]
  · rename_i h
    rw [Adjacency.mem_beside_link, Adjacency.mem_beside_link]
    tauto

theorem mem_vertices_ofPairs {ids : List NodeId} {ps : List (NodeId × NodeId)} {v : NodeId} :
    v ∈ (ofPairs ids ps).vertices ↔
      v ∈ ids ∨ ∃ p ∈ ps, p.1 ≠ p.2 ∧ (v = p.1 ∨ v = p.2) := by
  induction ps using List.reverseRecOn with
  | nil => simp [ofPairs, mem_vertices_ofVertices]
  | append_singleton ps p ih =>
    unfold ofPairs at ih ⊢
    rw [List.foldl_append, List.foldl_cons, List.foldl_nil, mem_vertices_connect, ih]
    simp only [List.mem_append, List.mem_singleton, or_and_right, exists_or, exists_eq_left,
      or_assoc]

/-- Two nodes go together once their pair has been connected, in either
order. -/
theorem connected_ofPairs {ids : List NodeId} {ps : List (NodeId × NodeId)} {a b : NodeId} :
    (ofPairs ids ps).connected a b = true ↔
      (SimpleGraph.fromRel fun a b => (a, b) ∈ ps).Adj a b := by
  rw [SimpleGraph.fromRel_adj]
  induction ps using List.reverseRecOn with
  | nil => simp [ofPairs, not_connected_ofVertices]
  | append_singleton ps p ih =>
    obtain ⟨c, d⟩ := p
    unfold ofPairs at ih ⊢
    rw [List.foldl_append, List.foldl_cons, List.foldl_nil, connected_connect, ih]
    simp only [List.mem_append, List.mem_singleton, Prod.mk.injEq]
    constructor
    · rintro (⟨hne, h⟩ | ⟨hcd, ⟨rfl, rfl⟩ | ⟨rfl, rfl⟩⟩)
      · exact ⟨hne, h.imp Or.inl Or.inl⟩
      · exact ⟨hcd, Or.inl (Or.inr ⟨rfl, rfl⟩)⟩
      · exact ⟨Ne.symm hcd, Or.inr (Or.inr ⟨rfl, rfl⟩)⟩
    · rintro ⟨hne, (h | ⟨rfl, rfl⟩) | (h | ⟨rfl, rfl⟩)⟩
      · exact Or.inl ⟨hne, Or.inl h⟩
      · exact Or.inr ⟨hne, Or.inl ⟨rfl, rfl⟩⟩
      · exact Or.inl ⟨hne, Or.inr h⟩
      · exact Or.inr ⟨Ne.symm hne, Or.inr ⟨rfl, rfl⟩⟩

/-! ## Counting pairs

A pair that is connected for the first time puts one node more beside each of
its two, and so raises the number of nodes that stand beside others by two. -/

theorem size_insert {s : SortedSet NodeId} {b : NodeId} :
    (s.insert b ()).size = s.size + if b ∈ s then 0 else 1 := by
  have hsize : (s.insert b ()).size = (s.erase b).size + 1 :=
    (Table.toList_insert_perm s b ()).length_eq
  split
  · rename_i hb
    obtain ⟨_, hget⟩ := Table.mem_iff.mp hb
    have hold : s.size = (s.erase b).size + 1 := (Table.toList_perm_of_get? hget).length_eq
    rw [hsize, hold, Nat.add_zero]
  · rename_i hb
    rw [hsize, Table.erase_of_not_mem hb]

theorem degrees_eq_sum (adj : Adjacency) : adj.degrees = (adj.toList.map (·.2.size)).sum := by
  rw [Adjacency.degrees, List.sum_eq_foldr, List.foldr_map]

theorem degrees_insert (adj : Adjacency) (a : NodeId) (s : SortedSet NodeId) :
    Adjacency.degrees (adj.insert a s) + (adj.beside a).size = adj.degrees + s.size := by
  have hnew : Adjacency.degrees (adj.insert a s) = s.size + Adjacency.degrees (adj.erase a) := by
    rw [degrees_eq_sum, degrees_eq_sum]
    exact ((Table.toList_insert_perm adj a s).map _).sum_eq
  have hold : adj.degrees = (adj.beside a).size + Adjacency.degrees (adj.erase a) := by
    unfold Adjacency.beside
    cases hget : adj.get? a with
    | some t =>
      rw [degrees_eq_sum, degrees_eq_sum]
      exact ((Table.toList_perm_of_get? hget).map _).sum_eq
    | none =>
      rw [Table.erase_of_not_mem (Table.not_mem_iff.mpr hget)]
      exact (Nat.zero_add _).symm
  omega

theorem degrees_link (adj : Adjacency) (a b : NodeId) :
    (adj.link a b).degrees = adj.degrees + if b ∈ adj.beside a then 0 else 1 := by
  have hsum := degrees_insert adj a ((adj.beside a).insert b ())
  rw [size_insert] at hsum
  unfold Adjacency.link
  omega

theorem degrees_connect {g : Compatibility} {a b : NodeId} (hab : a ≠ b) :
    (g.connect a b).adjacency.degrees =
      g.adjacency.degrees + if g.connected a b = true then 0 else 2 := by
  -- the first of the two steps does not tell whether the second adds a node
  have hback : a ∈ (g.adjacency.link a b).beside b ↔ b ∈ g.adjacency.beside a := by
    rw [Adjacency.mem_beside_link]
    exact ⟨fun h => h.elim (g.symm b a) fun h => absurd h.2 hab, fun h => Or.inl (g.symm a b h)⟩
  unfold connect
  rw [dif_neg hab, degrees_link, degrees_link]
  simp only [hback, connected_iff]
  split <;> rfl

/-- The pairs that are drawn, without their order and without loops. -/
def drawn (ps : List (NodeId × NodeId)) : Finset (Sym2 NodeId) :=
  ((ps.filter fun p => p.1 ≠ p.2).map fun p => s(p.1, p.2)).toFinset

theorem mem_drawn {ps : List (NodeId × NodeId)} {a b : NodeId} (hab : a ≠ b) :
    s(a, b) ∈ drawn ps ↔ (a, b) ∈ ps ∨ (b, a) ∈ ps := by
  simp only [drawn, List.mem_toFinset, List.mem_map, List.mem_filter, decide_eq_true_eq,
    Prod.exists, Sym2.eq_iff]
  constructor
  · rintro ⟨c, d, ⟨hin, -⟩, ⟨rfl, rfl⟩ | ⟨rfl, rfl⟩⟩
    · exact Or.inl hin
    · exact Or.inr hin
  · rintro (h | h)
    · exact ⟨a, b, ⟨h, hab⟩, Or.inl ⟨rfl, rfl⟩⟩
    · exact ⟨b, a, ⟨h, Ne.symm hab⟩, Or.inr ⟨rfl, rfl⟩⟩

theorem drawn_append (ps : List (NodeId × NodeId)) (a b : NodeId) :
    drawn (ps ++ [(a, b)]) = if a = b then drawn ps else insert s(a, b) (drawn ps) := by
  unfold drawn
  split
  · rename_i hab
    simp [hab]
  · rename_i hab
    simp [hab]

theorem degrees_ofPairs (ids : List NodeId) (ps : List (NodeId × NodeId)) :
    (ofPairs ids ps).adjacency.degrees = 2 * (drawn ps).card := by
  induction ps using List.reverseRecOn with
  | nil =>
    rw [degrees_eq_sum]
    refine List.sum_eq_zero fun n hn => ?_
    simp only [ofPairs, List.foldl_nil, ofVertices, Adjacency.alone, Table.mapValues, List.map_map,
      List.mem_map] at hn
    obtain ⟨_, -, rfl⟩ := hn
    rfl
  | append_singleton ps p ih =>
    obtain ⟨a, b⟩ := p
    have hlast : ofPairs ids (ps ++ [(a, b)]) = (ofPairs ids ps).connect a b := by
      simp [ofPairs]
    rw [hlast, drawn_append]
    by_cases hab : a = b
    · simp [connect, hab, ih]
    · have hdrawn : (ofPairs ids ps).connected a b = true ↔ s(a, b) ∈ drawn ps := by
        rw [connected_ofPairs, SimpleGraph.fromRel_adj, mem_drawn hab]
        exact and_iff_right hab
      rw [degrees_connect hab, ih, if_neg hab]
      by_cases hin : s(a, b) ∈ drawn ps
      · rw [if_pos (hdrawn.mpr hin), Finset.insert_eq_of_mem hin, Nat.add_zero]
      · rw [if_neg (mt hdrawn.mp hin), Finset.card_insert_of_notMem hin, Nat.mul_succ]

/-- Pairs are counted without their order and without repetitions. -/
theorem pairCount_ofPairs (ids : List NodeId) (ps : List (NodeId × NodeId)) :
    (ofPairs ids ps).pairCount = (drawn ps).card := by
  rw [pairCount, degrees_ofPairs, Nat.mul_div_cancel_left _ Nat.zero_lt_two]

/-! ## The law -/

theorem clique_ofPairs {ids : List NodeId} {ps : List (NodeId × NodeId)} {K : Finset NodeId} :
    (ofPairs ids ps).Clique K ↔
      (∀ v ∈ K, v ∈ ids ∨ ∃ p ∈ ps, p.1 ≠ p.2 ∧ (v = p.1 ∨ v = p.2)) ∧
        (SimpleGraph.fromRel fun a b => (a, b) ∈ ps).IsClique K := by
  unfold Clique
  simp only [mem_vertices_ofPairs, connected_ofPairs]
  exact Iff.rfl

/-- Whatever vertices and pairs come in, in whatever order and however often,
the list has the maximal cliques of at least the least size, each once, its
members ascending, and in the order of words. The graph has an edge for each
pair that is no loop, in both directions, and counts it once. -/
theorem maximalCliques_exact (ids : List NodeId) (ps : List (NodeId × NodeId)) (least : Nat) :
    let g := ofPairs ids ps
    let G := SimpleGraph.fromRel fun a b => (a, b) ∈ ps
    let V := {v | v ∈ ids ∨ ∃ p ∈ ps, p.1 ≠ p.2 ∧ (v = p.1 ∨ v = p.2)}
    (∀ c, c ∈ g.maximalCliques least ↔ c.Pairwise (· < ·) ∧ least ≤ c.length ∧
      Maximal (fun K : Finset NodeId => ↑K ⊆ V ∧ G.IsClique ↑K) c.toFinset) ∧
    (g.maximalCliques least).Pairwise (· < ·) ∧
    g.pairCount = ((ps.filter fun p => p.1 ≠ p.2).map fun p => s(p.1, p.2)).toFinset.card ∧
    (∀ a b, g.connected a b = true ↔ G.Adj a b) ∧
    ∀ a b, g.connected a b = g.connected b a := by
  intro g G V
  have hclique : (fun K : Finset NodeId => ↑K ⊆ V ∧ G.IsClique ↑K) = g.Clique := by
    funext K
    exact propext clique_ofPairs.symm
  refine ⟨?_, maximalCliques_ascending g least, pairCount_ofPairs ids ps,
    fun a b => connected_ofPairs, connected_comm g⟩
  intro c
  rw [hclique]
  exact mem_maximalCliques

example : (ofPairs [1, 2, 3, 4] [(1, 2), (3, 1), (1, 4), (2, 3), (2, 4), (4, 4)]).maximalCliques 2 =
    [[1, 2, 3], [1, 2, 4]] := by decide

end Compatibility

end StateGraph
