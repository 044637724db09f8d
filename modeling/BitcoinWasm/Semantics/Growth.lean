import BitcoinWasm.Semantics.LinearMemory

/-! How a heap changes when nothing is freed: by stores, and by blocks that the
allocator places. An allocator that stays behind a base leaves the memory below
it to others, and so do all blocks of a heap that grew through it.
-/

set_option autoImplicit false

namespace BitcoinWasm.Semantics

/-- The heaps that stores and new blocks lead to. -/
inductive Allocator.Grows (allocator : Allocator) (before : Heap) : Heap → Prop
  | refl : Grows allocator before before
  | store {after : Heap} (addr : Nat) (bytes : List UInt8) : Grows allocator before after →
      Grows allocator before (after.store addr bytes)
  | place {after : Heap} {size addr : Nat} : Grows allocator before after →
      allocator.place after.live size = some addr →
      Grows allocator before { after with live := ⟨addr, size⟩ :: after.live }

/-- No block is placed below the base. -/
def Allocator.From (allocator : Allocator) (base : Nat) : Prop :=
  ∀ {live size addr}, allocator.place live size = some addr → base ≤ addr

/-- No live block reaches below the base. -/
def StandsFrom (base : Nat) (live : List Block) : Prop := ∀ block ∈ live, base ≤ block.addr

namespace Allocator

variable {allocator : Allocator}

theorem Grows.trans {first second third : Heap} (left : allocator.Grows first second)
    (right : allocator.Grows second third) : allocator.Grows first third := by
  induction right with
  | refl => exact left
  | store addr bytes _ ih => exact ih.store addr bytes
  | place _ placed ih => exact ih.place placed

theorem malloc_grows (heap : Heap) (size : Nat) : allocator.Grows heap (allocator.malloc heap size).2 := by
  unfold malloc
  split
  next addr placed => exact Grows.refl.place placed
  next => exact .refl

theorem new_grows {heap after : Heap} {size addr : Nat} (allocated : allocator.new heap size = some (addr, after)) :
    allocator.Grows heap after := by
  obtain ⟨_, placed, same⟩ := Option.map_eq_some_iff.mp allocated
  cases same
  exact Grows.refl.place placed

theorem Grows.standsFrom {base : Nat} (behind : allocator.From base) {before after : Heap}
    (grows : allocator.Grows before after) (stands : StandsFrom base before.live) : StandsFrom base after.live := by
  induction grows with
  | refl => exact stands
  | store _ _ _ ih => exact ih
  | place _ placed ih =>
    intro block member
    rcases List.mem_cons.mp member with rfl | older
    · exact behind placed
    · exact ih block older

end Allocator

/-- A store below every live block touches none of them. -/
theorem Frame.store_below {base : Nat} {heap : Heap} (stands : StandsFrom base heap.live) {addr : Nat}
    {bytes : List UInt8} (below : addr + bytes.length ≤ base) :
    Frame heap (heap.store addr bytes) fun _ => False where
  live _ member := member
  kept block member a inside _ := by
    have above := stands block member
    unfold Block.Contains at inside
    apply Memory.store_outside
    omega

theorem le_top_nil (live : List Block) : 8 ≤ top live := by
  induction live with
  | nil => exact Nat.le_refl 8
  | cons first rest ih => exact Nat.le_trans ih (Nat.le_max_right _ _)

theorem bump_from {limit : Nat} (limit_le : limit ≤ 2 ^ 31) : (bump limit limit_le).From 8 := by
  intro live size addr placed
  simp only [bump, Option.ite_none_right_eq_some, Option.some.injEq] at placed
  exact placed.2 ▸ le_top_nil live

end BitcoinWasm.Semantics
