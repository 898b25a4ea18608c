import Coverage.Manifest

/-!
Manifests are the lists of nodes with pairwise distinct ids, and an id belongs to
one node of its manifest.
-/
namespace Coverage.Manifest

theorem eq_of_nodes_layout {m n : Manifest} (hnodes : m.nodes = n.nodes)
    (hlayout : m.layout = n.layout) : m = n := by
  cases m
  cases n
  simp_all

theorem ofNodes_of_nodup {nodes : List Node} (layout : Layout)
    (h : (nodes.map (·.id)).Nodup) : ofNodes nodes layout = .ok ⟨nodes, layout, h⟩ := by
  unfold ofNodes
  split
  · rename_i id hrepeat
    rw [(firstRepeat_eq_none_iff _).2 h] at hrepeat
    cases hrepeat
  · rfl

theorem ofNodes_of_not_nodup {nodes : List Node} (layout : Layout)
    (h : ¬ (nodes.map (·.id)).Nodup) : ∃ id, ofNodes nodes layout = .error id := by
  unfold ofNodes
  split
  · exact ⟨_, rfl⟩
  · rename_i hnone
    exact absurd ((firstRepeat_eq_none_iff _).1 hnone) h

end Coverage.Manifest
