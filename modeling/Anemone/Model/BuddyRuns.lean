import Anemone.Model.BuddyZone

/-!
# Runs of a zone

`History` pairs a zone with the blocks its callers hold; its steps are the calls of `alloc`, and
of `dealloc` on a held block.  `Record` pairs a zone with the log of all successful calls, whoever
makes them.  A call that panics has no step, so a statement that every call from every reached
state returns is a statement that no panic is reached.
-/

namespace Anemone.Buddy

variable {M N : ℕ}

/-- A block as the interface names it. -/
structure Chunk where
  addr : ℕ
  order : ℕ
deriving DecidableEq, Repr

namespace Chunk

/-- The bytes of the two blocks do not overlap. -/
def Apart (M : ℕ) (a b : Chunk) : Prop :=
  a.addr + M * 2 ^ a.order ≤ b.addr ∨ b.addr + M * 2 ^ b.order ≤ a.addr

instance (a b : Chunk) : Decidable (Apart M a b) := inferInstanceAs (Decidable (_ ∨ _))

def HasUnit (z : Zone M N) (c : Chunk) (u : ℕ) : Prop :=
  c.addr ≤ z.salloc + u * M ∧ z.salloc + (u + 1) * M ≤ c.addr + M * 2 ^ c.order

instance (z : Zone M N) (c : Chunk) (u : ℕ) : Decidable (HasUnit z c u) :=
  inferInstanceAs (Decidable (_ ∧ _))

/-- The block is a block of the zone: of an order it has, at a multiple of its length from
`salloc`, and inside the allocable units. -/
def InZone (z : Zone M N) (c : Chunk) : Prop :=
  c.order < N ∧ ∃ i, c.addr = z.salloc + i * 2 ^ c.order * M ∧ (i + 1) * 2 ^ c.order ≤ z.nunits

/-- The block of the same order that the block would be merged with. -/
def buddy (z : Zone M N) (c : Chunk) : Chunk :=
  ⟨z.salloc + buddyBlockIdx ((c.addr - z.salloc) / (M * 2 ^ c.order)) * (M * 2 ^ c.order), c.order⟩

end Chunk

/-- The blocks in the free lists. -/
def Zone.freeChunks (z : Zone M N) : List Chunk :=
  (List.range N).flatMap fun o => (z.freeLists o).map fun a => ⟨a, o⟩

/-- A zone and the blocks its callers hold. -/
structure History (M N : ℕ) where
  zone : Zone M N
  live : List Chunk

/-- One call: any `alloc`, or a `dealloc` of a held block. -/
inductive History.Step : History M N → History M N → Prop
  | alloc (s : History M N) (order : ℕ) {addr : ℕ} {z : Zone M N}
      (h : s.zone.alloc order = .ok (.ok addr, z)) : Step s ⟨z, ⟨addr, order⟩ :: s.live⟩
  | allocFails (s : History M N) (order : ℕ) {e : BuddyError} {z : Zone M N}
      (h : s.zone.alloc order = .ok (.error e, z)) : Step s ⟨z, s.live⟩
  | dealloc (s : History M N) (c : Chunk) {z : Zone M N} (hc : c ∈ s.live)
      (h : s.zone.dealloc c.addr c.order = .ok (.ok (), z)) : Step s ⟨z, s.live.erase c⟩
  | deallocFails (s : History M N) (c : Chunk) {e : BuddyError} {z : Zone M N} (hc : c ∈ s.live)
      (h : s.zone.dealloc c.addr c.order = .ok (.error e, z)) : Step s ⟨z, s.live⟩

/-- A successful call. -/
inductive Event where
  | alloc (c : Chunk)
  | dealloc (c : Chunk)
deriving DecidableEq, Repr

/-- A zone and the log of its successful calls, latest first. -/
structure Record (M N : ℕ) where
  zone : Zone M N
  log : List Event

def HandedOut (z : Zone M N) : List Event → ℕ → Prop
  | [], _ => False
  | .alloc c :: log, u => c.HasUnit z u ∨ HandedOut z log u
  | .dealloc c :: log, u => ¬ c.HasUnit z u ∧ HandedOut z log u

instance HandedOut.decide (z : Zone M N) : ∀ log u, Decidable (HandedOut z log u)
  | [], _ => isFalse id
  | .alloc c :: log, u =>
    have := HandedOut.decide z log u
    inferInstanceAs (Decidable (c.HasUnit z u ∨ HandedOut z log u))
  | .dealloc c :: log, u =>
    have := HandedOut.decide z log u
    inferInstanceAs (Decidable (¬ c.HasUnit z u ∧ HandedOut z log u))

/-- The block was freed by a successful `dealloc` of the same address and order, and no
`alloc` has handed out any of its bytes since. -/
def FreedSince (M : ℕ) (c : Chunk) : List Event → Prop
  | [] => False
  | .alloc d :: log => c.Apart M d ∧ FreedSince M c log
  | .dealloc d :: log => d = c ∨ FreedSince M c log

/-- One successful call, or an `alloc` that fails. -/
inductive Record.Step : Record M N → Record M N → Prop
  | alloc (s : Record M N) (order : ℕ) {addr : ℕ} {z : Zone M N}
      (h : s.zone.alloc order = .ok (.ok addr, z)) :
      Step s ⟨z, .alloc ⟨addr, order⟩ :: s.log⟩
  | allocFails (s : Record M N) (order : ℕ) {e : BuddyError} {z : Zone M N}
      (h : s.zone.alloc order = .ok (.error e, z)) : Step s ⟨z, s.log⟩
  | dealloc (s : Record M N) (c : Chunk) {z : Zone M N}
      (h : s.zone.dealloc c.addr c.order = .ok (.ok (), z)) :
      Step s ⟨z, .dealloc c :: s.log⟩

/-- A step that frees only units that are handed out. -/
def Record.ProperStep (s t : Record M N) : Prop :=
  s.Step t ∧ ∀ c, t.log = .dealloc c :: s.log → ∀ u, c.HasUnit s.zone u → HandedOut s.zone s.log u

end Anemone.Buddy
