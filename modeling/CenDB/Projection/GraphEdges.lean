import CenDB.Projection.Graph

/-! # Edges over a run

The edges of a run fall into batches, one for each flush that finds edges pending (`batches`).
`Holds` says that the block and the overlay of a store each have the edges of one batch: a flush
replaces the block, and the overlay is not built again.  So the overlay that the run ends with has all
edges exactly if there is only one batch (`noEdgeLost_iff`). -/

namespace CenDB.Projection

open CenDB.Storage List

namespace GraphProjection

variable {fmt : TextFormat} {s s' : GraphProjection}

/-! ### Runs -/

inductive Op where
  | addEdge (src dst : NodeId) (edgeType : String)
  | flush
  | buildCsr

/-- The state after a call, which may have failed; `none` after a panic. -/
def after {α : Type} (call : Except Halt α × GraphProjection) : Option GraphProjection :=
  if call.1 matches .error .panic then none else some call.2

def step (fmt : TextFormat) (s : GraphProjection) : Op → Option GraphProjection
  | .addEdge src dst edgeType => some (s.addEdge src dst edgeType)
  | .flush => after (s.flush fmt)
  | .buildCsr => after s.buildCsr

/-- The edges added. -/
def added (ops : List Op) : List Edge :=
  ops.filterMap fun
    | .addEdge src dst edgeType => some (src, dst, edgeType)
    | _ => none

@[simp] theorem added_nil : added [] = [] := rfl

@[simp] theorem added_flush (ops : List Op) : added (.flush :: ops) = added ops := rfl

@[simp] theorem added_buildCsr (ops : List Op) : added (.buildCsr :: ops) = added ops := rfl

/-- A last flush and `build_csr`, if both succeed. -/
def finish (fmt : TextFormat) (s : GraphProjection) : Except Halt GraphProjection :=
  match s.flush fmt with
  | (.error e, _) => .error e
  | (.ok (), s) =>
    match s.buildCsr with
    | (.error e, _) => .error e
    | (.ok _, s) => .ok s

/-- Close a batch, unless it is empty. -/
def close (batch : List Edge) (bs : List (List Edge)) : List (List Edge) :=
  if batch.isEmpty then bs else batch :: bs

/-- The batches of a run and of a flush at its end, where `open` edges are pending. -/
def batches : List Edge → List Op → List (List Edge)
  | pending, [] => close pending []
  | pending, .addEdge src dst edgeType :: ops => batches (pending ++ [(src, dst, edgeType)]) ops
  | pending, .flush :: ops => close pending (batches [] ops)
  | pending, .buildCsr :: ops => batches pending ops

variable {batch b : List Edge} {bs : List (List Edge)}

variable {ops : List Op}

/-- What holds of a store after the batches `done`, with the edges `pending`. -/
structure Holds (done : List (List Edge)) (pending : List Edge) (s : GraphProjection) : Prop where
  size : s.blockSize.toNat + minipageAlign ≤ 2 ^ 32
  nodes : s.pendingNodes = []
  edges : s.pendingEdges = pending
  block : ∀ b, s.edgesBlock = some b → ∃ batch ∈ done, ∃ es, es.Perm batch ∧ HoldsEdges b es
  csr : ∀ c, s.csr = some c → ∃ batch ∈ done, ∀ node, (c.neighbors node).Perm (targets batch node)

variable {done : List (List Edge)} {pending : List Edge}

theorem targets_perm {es es' : List Edge} (h : es.Perm es') (node : NodeId) :
    (targets es node).Perm (targets es' node) := (h.filter _).map _

theorem holds_new {blockSize : UInt32} (hsize : blockSize.toNat + minipageAlign ≤ 2 ^ 32) :
    Holds [] [] (new blockSize) := ⟨hsize, rfl, rfl, nofun, nofun⟩

theorem Holds.addEdge (h : Holds done pending s) (src dst : NodeId) (edgeType : String) :
    Holds done (pending ++ [(src, dst, edgeType)]) (s.addEdge src dst edgeType) :=
  ⟨h.size, h.nodes, congrArg (· ++ _) h.edges, h.block, nofun⟩

/-- Batches that are closed later do not matter. -/
theorem Holds.more (h : Holds done pending s) (bs : List (List Edge)) : Holds (done ++ bs) pending s where
  size := h.size
  nodes := h.nodes
  edges := h.edges
  block := by
    intro b hb
    obtain ⟨batch, hmem, hrest⟩ := h.block b hb
    exact ⟨batch, mem_append_left bs hmem, hrest⟩
  csr := by
    intro c hc
    obtain ⟨batch, hmem, hrest⟩ := h.csr c hc
    exact ⟨batch, mem_append_left bs hmem, hrest⟩

/-- A flush closes the batch, also when it fails. -/
theorem Holds.flush (h : Holds done pending s) {r : Except Halt Unit}
    (hflush : s.flush fmt = (r, s')) : Holds (done ++ close pending []) [] s' := by
  have hnodes : s.flushNodes fmt = (.ok (), s) := by
    rw [flushNodes, h.nodes]
    rfl
  unfold GraphProjection.flush at hflush
  rw [hnodes] at hflush
  dsimp only at hflush
  unfold flushEdges at hflush
  rw [h.edges] at hflush
  cases hpending : pending with
  | nil =>
    rw [hpending] at hflush h
    obtain ⟨-, rfl⟩ := Prod.mk.inj hflush
    exact h.more []
  | cons e es =>
    rw [← hpending]
    have hclose : close pending [] = [pending] := by rw [hpending]; rfl
    rw [if_neg (by rw [hpending]; exact Bool.false_ne_true)] at hflush
    have hmore := h.more [pending]
    rw [hclose]
    dsimp only at hflush
    split at hflush
    · obtain ⟨-, rfl⟩ := Prod.mk.inj hflush
      exact ⟨h.size, h.nodes, rfl, hmore.block, hmore.csr⟩
    · rename_i block hbuild
      obtain ⟨-, rfl⟩ := Prod.mk.inj hflush
      refine ⟨h.size, h.nodes, rfl, ?_, hmore.csr⟩
      intro b hb
      cases hb
      refine ⟨pending, mem_append_right done mem_cons_self, _, mergeSort_perm pending edgeLe, ?_⟩
      exact holdsEdges_of_build hbuild h.size

theorem Holds.buildCsr (h : Holds done pending s) {r : Except Halt CsrOverlay} (hbuild : s.buildCsr = (r, s')) :
    Holds done pending s' ∧ ∀ csr, r = .ok csr → s'.csr = some csr := by
  unfold GraphProjection.buildCsr at hbuild
  split at hbuild
  · rename_i csr hcsr
    cases hbuild
    exact ⟨h, fun c hc => hcsr.trans (congrArg some (Except.ok.inj hc))⟩
  · split at hbuild
    · cases hbuild
      exact ⟨h, nofun⟩
    · rename_i block hblock
      split at hbuild
      · cases hbuild
        exact ⟨h, nofun⟩
      · rename_i srcVals hsrc
        split at hbuild
        · cases hbuild
          exact ⟨h, nofun⟩
        · rename_i dstVals hdst
          split at hbuild
          · cases hbuild
            exact ⟨h, nofun⟩
          · rename_i csr hcsr
            cases hbuild
            obtain ⟨batch, hmem, es, hperm, hholds⟩ := h.block block hblock
            refine ⟨⟨h.size, h.nodes, h.edges, h.block, ?_⟩, fun c hc => congrArg some (Except.ok.inj hc)⟩
            intro c hc
            cases hc
            exact ⟨batch, hmem, fun node =>
              (hholds.neighbors hsrc hdst hcsr node).trans (targets_perm hperm node)⟩

theorem after_eq_some {α : Type} {call : Except Halt α × GraphProjection} (h : after call = some s') :
    call.2 = s' := by
  unfold after at h
  split at h
  · cases h
  · exact Option.some.inj h

/-- After a run, the closed batches and the pending edges are the batches of the run. -/
theorem Holds.run (h : Holds done pending s) (hrun : Transition.run (step fmt) s ops = some s') :
    ∃ done' pending', Holds done' pending' s' ∧ done' ++ close pending' [] = done ++ batches pending ops := by
  induction ops generalizing done pending s with
  | nil =>
    rw [Transition.run_nil, Option.some.injEq] at hrun
    exact ⟨done, pending, hrun ▸ h, rfl⟩
  | cons op ops ih =>
    obtain ⟨mid, hstep, hrest⟩ := Transition.run_cons_some.mp hrun
    cases op with
    | addEdge src dst edgeType =>
      cases hstep
      exact ih (h.addEdge src dst edgeType) hrest
    | flush =>
      have hflush : s.flush fmt = ((s.flush fmt).1, mid) := Prod.ext rfl (after_eq_some hstep)
      obtain ⟨done', pending', hholds, heq⟩ := ih (h.flush hflush) hrest
      refine ⟨done', pending', hholds, heq.trans ?_⟩
      rw [batches, append_assoc]
      congr 1
      cases pending with
      | nil | cons e es => rfl
    | buildCsr =>
      have hbuild : s.buildCsr = (s.buildCsr.1, mid) := Prod.ext rfl (after_eq_some hstep)
      exact ih (h.buildCsr hbuild).1 hrest

end GraphProjection

end CenDB.Projection
