import ElementContent.Proofs.Attribution.Report
import ElementContent.Proofs.Content.Account
import ElementContent.Proofs.Position.Numbered

/-!
# Particles are origins

Two leaves of a draft belong to one particle if and only if they come from the same leaf command,
whatever expansions lie in between. Where a leaf comes from is what the tables of the copies say,
and the ledger keeps; its particle is what the draft says.

- `SameOrigin`: two nodes are the leaf of one command or copies of it.
- `Ledger.Accounted.same_particle_iff`: for leaves of a draft, a particle is an origin.
- `Ledger.Accounted.claimant_eq_iff`: so is a claimant, for the positions of what is built.
-/

namespace ElementContent

/-! ## What particles say -/

namespace Analysis.IsExact

variable {decl : Declaration} {a : Analysis} {p q : Nat} {leaf leaf' : Leaf}

/-- The leaf at a position is that of its node. -/
theorem getElem?_node (h : a.IsExact decl.tree) (hp : a.leaves[p]? = some leaf) :
    decl.nodes[leaf.node]? = some (.leaf leaf.term leaf.particle) ∧
      leaf.term.takesChild = true := by
  have hmem : leaf ∈ decl.tree.leaves := by
    rw [← h.leaves_eq, Array.mem_toList_iff]
    exact Array.mem_of_getElem? hp
  exact ⟨decl.standsIn_tree _ (Tree.mem_subtrees_of_mem_leaves hmem),
    (Tree.term_of_mem_leaves hmem).2⟩

/-- Leaves at one node are at one position. -/
theorem position_eq (h : a.IsExact decl.tree) (hp : a.leaves[p]? = some leaf)
    (hq : a.leaves[q]? = some leaf') (hnode : leaf.node = leaf'.node) : p = q := by
  have hposition := (h.position_iff leaf.node p).2 (by rw [hp]; rfl)
  rw [(h.position_iff leaf.node q).2 (by rw [hq, hnode]; rfl)] at hposition
  exact (Option.some.inj hposition).symm

end Analysis.IsExact

/-- The two nodes are the leaf of one command or copies of it. -/
def SameOrigin (origins : List (Nat × Nat)) (i j : Nat) : Prop :=
  ∃ r, origins.lookup i = some r ∧ origins.lookup j = some r

namespace Ledger.Accounted

variable {l : Ledger} {i j : Nat} {term term' : Term} {particle particle' : Option Nat}

/-- Two leaves that take a child belong to one particle if and only if they have one origin. -/
theorem same_particle_iff (h : l.Accounted) (hi : l.draft.nodes[i]? = some (.leaf term particle))
    (hj : l.draft.nodes[j]? = some (.leaf term' particle')) (hterm : term.takesChild = true)
    (hne : i ≠ j) :
    (∃ id, particle = some id ∧ particle' = some id) ↔ SameOrigin l.origins i j := by
  constructor
  · rintro ⟨id, rfl, rfl⟩
    obtain ⟨r, hr⟩ := h.known hi (.inl hterm)
    exact ⟨r, hr, (h.apart hi hj rfl rfl).symm.trans hr⟩
  · rintro ⟨r, hir, hjr⟩
    -- both are like their origin, and with no particle the one would be the other
    obtain ⟨-, x, p, hr, hi'⟩ := h.alike hir
    obtain ⟨-, x', p', hr', hj'⟩ := h.alike hjr
    cases hi.symm.trans hi'
    cases hj.symm.trans hj'
    cases hr.symm.trans hr'
    cases particle with
    | none =>
      have hloose : (Node.leaf term none : Node Nat).isLoose = true :=
        Node.isLoose_eq_true_iff.2 ⟨hterm, rfl⟩
      exact absurd (h.alone hj hloose (hir.trans hjr.symm)) hne
    | some id => exact ⟨id, rfl, rfl⟩

/-- Two positions of what is built are of one claimant if and only if they have one origin. -/
theorem claimant_eq_iff {root p q : Nat} {decl : Declaration} {limits : Limits} {a : Analysis}
    {leaf leaf' : Leaf} (h : l.Accounted) (hbuild : l.draft.build root = .ok decl)
    (ha : Analysis.ofDeclaration decl limits = .ok a) (hp : a.leaves[p]? = some leaf)
    (hq : a.leaves[q]? = some leaf') :
    (Candidate.ofLeaf p leaf).claimant = (Candidate.ofLeaf q leaf').claimant ↔
      SameOrigin l.origins leaf.node leaf'.node := by
  have hexact := Analysis.isExact_ofDeclaration ha
  obtain ⟨hnode, hterm⟩ := hexact.getElem?_node hp
  obtain ⟨hnode', -⟩ := hexact.getElem?_node hq
  rw [Draft.nodes_of_build hbuild] at hnode hnode'
  by_cases hpq : p = q
  · obtain rfl := hpq
    obtain rfl := Option.some.inj (hp.symm.trans hq)
    obtain ⟨r, hr⟩ := h.known hnode (.inl hterm)
    exact iff_of_true rfl ⟨r, hr, hr⟩
  · -- the positions are those of different nodes
    have hne : leaf.node ≠ leaf'.node := fun heq => hpq (hexact.position_eq hp hq heq)
    rw [← h.same_particle_iff hnode hnode' hterm hne, Candidate.claimant_ofLeaf_eq_iff]
    exact or_iff_left fun hnone => hpq hnone.2.2

end Ledger.Accounted

/-- The particles of a draft are the origins of its leaves. -/
structure Draft.ByOrigin (d : Draft) (origins : List (Nat × Nat)) : Prop where
  /-- A leaf that takes a child is the leaf of a command or like that leaf. -/
  descends : ∀ (i : Nat) (term : Term) (particle : Option Nat),
    d.nodes[i]? = some (.leaf term particle) → term.takesChild = true →
      ∃ r, origins.lookup i = some r ∧ origins.lookup r = some r ∧
        d.nodes[r]? = some (.leaf term particle)
  /-- Two leaves that take a child belong to one particle if and only if they have one origin. -/
  same_particle_iff : ∀ (i j : Nat) (term term' : Term) (particle particle' : Option Nat),
    d.nodes[i]? = some (.leaf term particle) → d.nodes[j]? = some (.leaf term' particle') →
      term.takesChild = true → term'.takesChild = true → i ≠ j →
        ((∃ id, particle = some id ∧ particle' = some id) ↔ SameOrigin origins i j)
  /-- Leaves of different commands share no particle, whatever they stand for. -/
  one_origin : ∀ (i j : Nat) (term term' : Term) (id : Nat),
    d.nodes[i]? = some (.leaf term (some id)) → d.nodes[j]? = some (.leaf term' (some id)) →
      SameOrigin origins i j
  /-- A leaf that takes a child and has no particle has no copies. -/
  no_copies : ∀ (i : Nat) (term : Term), d.nodes[i]? = some (.leaf term none) →
    term.takesChild = true → ∀ j, SameOrigin origins i j → j = i
  /-- Particles are declared. -/
  declared : ∀ (i : Nat) (term : Term) (id : Nat), d.nodes[i]? = some (.leaf term (some id)) →
    id < d.labels.size
  /-- In what is built, two positions are of one claimant if and only if they have one origin. -/
  claimant_eq_iff : ∀ (root : Nat) (decl : Declaration) (limits : Limits) (a : Analysis),
    d.build root = .ok decl → Analysis.ofDeclaration decl limits = .ok a →
      ∀ (p q : Nat) (leaf leaf' : Leaf), a.leaves[p]? = some leaf → a.leaves[q]? = some leaf' →
        ((Candidate.ofLeaf p leaf).claimant = (Candidate.ofLeaf q leaf').claimant ↔
          SameOrigin origins leaf.node leaf'.node)

theorem Ledger.Accounted.byOrigin {d : Draft} {origins : List (Nat × Nat)}
    (h : Accounted ⟨d, origins⟩) : d.ByOrigin origins where
  descends i term particle hi hterm := by
    obtain ⟨r, hr⟩ := h.known hi (.inl hterm)
    obtain ⟨hroot, _, _, hn, hi'⟩ := h.alike hr
    cases hi.symm.trans hi'
    exact ⟨r, hr, hroot, hn⟩
  same_particle_iff i j term term' particle particle' hi hj hterm _ hne :=
    h.same_particle_iff hi hj hterm hne
  one_origin i j term term' id hi hj := by
    obtain ⟨r, hr⟩ := h.known hi (.inr (Option.some_ne_none id))
    exact ⟨r, hr, (h.apart hi hj rfl rfl).symm.trans hr⟩
  no_copies i term hi hterm j := by
    rintro ⟨r, hir, hjr⟩
    exact h.alone hi (Node.isLoose_eq_true_iff.2 ⟨hterm, rfl⟩) (hjr.trans hir.symm)
  declared i term id hi := h.declared hi rfl
  claimant_eq_iff root decl limits a hbuild ha p q leaf leaf' hp hq :=
    h.claimant_eq_iff hbuild ha hp hq

/-- Whatever commands have led to a draft, a ledger can be kept of the leaf commands that its leaves
come from: a copy comes from where the node comes from for which the table of its pass has it. However
the ledger is kept, particles are origins. -/
theorem particles_are_origins {d : Draft} {ids : List Nat} (h : d.Reached ids) :
    (∃ origins, d.Recorded ids origins) ∧
      ∀ origins, d.Recorded ids origins → d.ByOrigin origins ∧
        ∀ node ∈ ids, Ledger.CopiesOrigins ⟨d, origins⟩ node := by
  refine ⟨h.exists_recorded, fun origins hrecorded => ?_⟩
  have haccounted := hrecorded.accounted
  exact ⟨haccounted.byOrigin,
    fun node hnode => haccounted.copiesOrigins h.wellFormed (h.lt_size hnode)⟩

/-- A draft with two leaves for the same element: one that belongs to no particle, and one of a
declared particle. -/
def twinDraft : Draft :=
  (((Draft.empty .standard).leaf (.element ⟨0, 1⟩)).2.particle "a" (.element ⟨0, 1⟩)).2

/-- The first leaf is copied twice. The copies are entered with its origin, and the particle that
they share with it is not that of the other leaf. -/
theorem particles_are_origins_twinDraft : ∃ d, twinDraft.repeated 0 ⟨3, some 3⟩ = .ok (5, d) ∧
    d.Recorded [5, 1, 0] [(3, 0), (2, 0), (1, 1), (0, 0)] ∧
    d.ByOrigin [(3, 0), (2, 0), (1, 1), (0, 0)] ∧
    d.nodes = #[.leaf (.element ⟨0, 1⟩) (some 1), .leaf (.element ⟨0, 1⟩) (some 0),
      .leaf (.element ⟨0, 1⟩) (some 1), .leaf (.element ⟨0, 1⟩) (some 1),
      .group .sequence 0 2, .group .sequence 4 3] := by
  have hreached : twinDraft.Reached [1, 0] :=
    .perform
      (.perform (.empty .standard) (.leaf (.element ⟨0, 1⟩)) (by simp [Command.operands]) rfl)
      (.particle "a" (.element ⟨0, 1⟩)) (by simp [Command.operands]) rfl
  have hrecorded : twinDraft.Recorded [1, 0] [(1, 1), (0, 0)] :=
    .perform
      (.perform (.empty .standard) (.leaf (.element ⟨0, 1⟩)) (by simp [Command.operands]) rfl)
      (.particle "a" (.element ⟨0, 1⟩)) (by simp [Command.operands]) rfl
  have hid : (twinDraft.expand 0 ⟨3, some 3⟩).1 = 5 := by decide +kernel
  have hok : twinDraft.repeated 0 ⟨3, some 3⟩ =
      .ok (5, (twinDraft.expand 0 ⟨3, some 3⟩).2) :=
    Draft.repeated_eq_ok_iff.2 ⟨rfl, by decide, by decide, Prod.ext hid rfl⟩
  obtain ⟨origins, hout⟩ := Draft.exists_carryOut (c := .repeated 0 ⟨3, some 3⟩)
    hreached.wellFormed (by simp [Command.operands, twinDraft, Draft.particle, Draft.leaf]) hok
    [(1, 1), (0, 0)]
  have horigins : (Ledger.carryOut ⟨twinDraft, [(1, 1), (0, 0)]⟩ (.repeated 0 ⟨3, some 3⟩)).map
      (·.2.origins) = some [(3, 0), (2, 0), (1, 1), (0, 0)] := by
    decide +kernel
  rw [hout] at horigins
  obtain rfl := Option.some.inj horigins
  have hreached' := hreached.perform (.repeated 0 ⟨3, some 3⟩) (by simp [Command.operands]) hok
  have hrecorded' := hrecorded.perform (.repeated 0 ⟨3, some 3⟩) (by simp [Command.operands]) hout
  obtain ⟨hparticles, -⟩ := (particles_are_origins hreached').2 _ hrecorded'
  exact ⟨_, hok, hrecorded', hparticles, by decide +kernel⟩

end ElementContent
