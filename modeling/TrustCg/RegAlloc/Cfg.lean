import TrustCg.Lib.Search
import TrustCg.RegAlloc.Types

/-!
# Walking the control-flow graph

The validator's two walks over the successor lists: the blocks control can reach
(`reachableBlocks`) and the order in which it visits them
(`cfgReversePostOrder`).  Both loops take a bound on their iterations and answer
`none` when it is too small; from some bound on they answer, and the answers are
the reachable blocks (`reachableBlocks_spec`) and a list that holds all of them
(`cfgReversePostOrder_spec`).
-/

namespace TrustCg.RegAlloc

/-- The blocks a depth-first search from the entry marks. -/
def reachableBlocks (fuel : ℕ) (f : MachFunction) : Option (BlockId → Bool) :=
  if f.entryBlock < f.blocks.length then
    (Loop.run (Search.step f.blocks.length f.succs) fuel (Search.start f.entryBlock)).map
      Search.State.marked
  else some fun _ => false

/-- One block of the layout order: blocks the walk has not met, and indices out of
range, keep their relative placement at the end. -/
def appendUnvisited (n : ℕ) (acc : (BlockId → Bool) × List BlockId) (block : BlockId) :
    (BlockId → Bool) × List BlockId :=
  if block ≥ n then (acc.1, acc.2 ++ [block])
  else if acc.1 block = false then (Function.update acc.1 block true, acc.2 ++ [block])
  else acc

/-- The reverse of the post-order, followed by the blocks that are not in it. -/
def layoutOrder (f : MachFunction) (walk : Search.OrderState) : List BlockId :=
  (f.blockOrder.foldl (appendUnvisited f.blocks.length)
    (walk.visited, walk.postorder.reverse)).2

/-- The blocks in reverse postorder. -/
def cfgReversePostOrder (fuel : ℕ) (f : MachFunction) : Option (List BlockId) :=
  let walk :=
    if f.entryBlock < f.blocks.length then
      Loop.run (Search.orderStep f.blocks.length f.succs) fuel (Search.orderStart f.entryBlock)
    else some ⟨fun _ => false, [], []⟩
  walk.map (layoutOrder f)

theorem reachableBlocks_spec (f : MachFunction) :
    ∃ reachable, (∀ fuel, 2 * f.blocks.length + 2 ≤ fuel → reachableBlocks fuel f = some reachable)
      ∧ ∀ b, reachable b = true ↔ f.Reachable b := by
  by_cases hentry : f.entryBlock < f.blocks.length
  · obtain ⟨t, hrun, hmarks⟩ := Search.search_marks_reachable f.blocks.length f.succs f.entryBlock
    refine ⟨t.marked, ?_, ?_⟩
    · intro fuel hfuel
      rw [reachableBlocks, if_pos hentry, hrun fuel hfuel]
      rfl
    intro b
    rw [hmarks b]
    exact ⟨fun h => ⟨hentry, h⟩, fun h => h.2⟩
  refine ⟨fun _ => false, ?_, ?_⟩
  · intro fuel _
    rw [reachableBlocks, if_neg hentry]
  intro b
  constructor
  · intro h
    cases h
  intro h
  exact absurd h.1 hentry

theorem mem_appendUnvisited (n : ℕ) (order : List BlockId) (acc : (BlockId → Bool) × List BlockId)
    (b : BlockId) (h : b ∈ acc.2) : b ∈ (order.foldl (appendUnvisited n) acc).2 := by
  induction order generalizing acc b with
  | nil => exact h
  | cons block order ih =>
    refine ih _ b ?_
    unfold appendUnvisited
    split
    · exact List.mem_append_left _ h
    split
    · exact List.mem_append_left _ h
    · exact h

theorem cfgReversePostOrder_spec (f : MachFunction) :
    ∃ order bound, (∀ fuel, bound ≤ fuel → cfgReversePostOrder fuel f = some order)
      ∧ ∀ b, f.Reachable b → b ∈ order := by
  by_cases hentry : f.entryBlock < f.blocks.length
  · obtain ⟨t, bound, hrun, hmem, -⟩ := Search.postOrder_spec f.blocks.length f.succs f.entryBlock
    refine ⟨layoutOrder f t, bound, ?_, ?_⟩
    · intro fuel hfuel
      rw [cfgReversePostOrder, if_pos hentry, hrun fuel hfuel]
      rfl
    intro b hb
    exact mem_appendUnvisited _ _ _ b (List.mem_reverse.2 ((hmem b).2 hb.2))
  refine ⟨layoutOrder f ⟨fun _ => false, [], []⟩, 0, ?_, ?_⟩
  · intro fuel _
    rw [cfgReversePostOrder, if_neg hentry]
    rfl
  intro b hb
  exact absurd hb.1 hentry

end TrustCg.RegAlloc
