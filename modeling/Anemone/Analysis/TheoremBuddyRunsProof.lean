import Anemone.Analysis.BuddyInit
import Anemone.Model.BuddyRuns

/-!
# Whole runs of a zone

In every state a zone can reach, held and free blocks tile it, and `alloc` fails only when no
aligned run of free units is long enough.  `dealloc` tests the bit of the freed order only; a merge
clears it, so that a second `dealloc` of a merged block is accepted.
-/

namespace Anemone.Buddy

open Relation.ReflTransGen (single)
open List
open Checked (bind_eq_ok pure_eq)
open Dyadic (Block mate cover freeBlocks)
open Zone (Represents SameLayout)

variable {M N : ℕ}

/-- the chunk of a block of units. -/
def Zone.chunk (z : Zone M N) (b : Block) : Chunk := ⟨z.blockAddr b.order b.index, b.order⟩

theorem hasUnit_chunk (z : Zone M N) (hM : 0 < M) (b : Block) (u : ℕ) :
    (z.chunk b).HasUnit z u ↔ b.Covers u := by
  have hlo : b.index * (M * 2 ^ b.order) ≤ u * M ↔ b.index * 2 ^ b.order ≤ u := by
    rw [show b.index * (M * 2 ^ b.order) = b.index * 2 ^ b.order * M by ring]
    exact Nat.mul_le_mul_right_iff hM
  have hhi : (u + 1) * M ≤ b.index * (M * 2 ^ b.order) + M * 2 ^ b.order ↔
      u + 1 ≤ (b.index + 1) * 2 ^ b.order := by
    rw [show b.index * (M * 2 ^ b.order) + M * 2 ^ b.order =
      (b.index + 1) * 2 ^ b.order * M by ring]
    exact Nat.mul_le_mul_right_iff hM
  unfold Chunk.HasUnit Zone.chunk Zone.blockAddr Block.Covers
  rw [Nat.add_le_add_iff_left, hlo, Nat.add_assoc, Nat.add_le_add_iff_left, hhi]
  omega

variable {z : Zone M N}

theorem chunk_injective (h : z.Geometry) : Function.Injective z.chunk := by
  rintro ⟨o, i⟩ ⟨p, j⟩ heq
  simp only [Zone.chunk, Chunk.mk.injEq] at heq
  obtain ⟨haddr, rfl⟩ := heq
  rw [h.blockAddr_injective o haddr]

theorem apart_chunk (z : Zone M N) {b c : Block} (h : ∀ u, b.Covers u → ¬ c.Covers u) :
    (z.chunk b).Apart M (z.chunk c) := by
  have hsep : (b.index + 1) * 2 ^ b.order ≤ c.index * 2 ^ c.order ∨
      (c.index + 1) * 2 ^ c.order ≤ b.index * 2 ^ b.order := by
    by_contra hno
    push Not at hno
    have hb := Block.covers_first b
    have hc := Block.covers_first c
    rcases Nat.le_total (b.index * 2 ^ b.order) (c.index * 2 ^ c.order) with hle | hle
    · exact h _ ⟨hle, hno.1⟩ hc
    · exact h _ hb ⟨hle, hno.2⟩
  have hmul : ∀ d e : Block, (d.index + 1) * 2 ^ d.order ≤ e.index * 2 ^ e.order →
      d.index * (M * 2 ^ d.order) + M * 2 ^ d.order ≤ e.index * (M * 2 ^ e.order) := by
    intro d e hde
    calc d.index * (M * 2 ^ d.order) + M * 2 ^ d.order
        = M * ((d.index + 1) * 2 ^ d.order) := by ring
      _ ≤ M * (e.index * 2 ^ e.order) := Nat.mul_le_mul_left M hde
      _ = e.index * (M * 2 ^ e.order) := by ring
  unfold Chunk.Apart Zone.chunk Zone.blockAddr
  rcases hsep with hbc | hcb
  · have := hmul b c hbc
    left
    dsimp only
    omega
  · have := hmul c b hcb
    right
    dsimp only
    omega

theorem not_apart_of_hasUnit (hM : 0 < M) {c d : Chunk} {u : ℕ} (hc : c.HasUnit z u)
    (hd : d.HasUnit z u) : ¬ c.Apart M d := by
  have hexp : (u + 1) * M = u * M + M := by ring
  unfold Chunk.HasUnit at hc hd
  unfold Chunk.Apart
  omega

variable {b : Block} {free : ℕ → List ℕ}

theorem inZone_chunk (z : Zone M N) (ho : b.order < N)
    (hi : b.index < z.nblocks b.order) : (z.chunk b).InZone z := by
  refine ⟨ho, b.index, ?_, (z.lt_nblocks_iff _ _).mp hi⟩
  unfold Zone.chunk Zone.blockAddr
  ring

theorem freeChunks_eq {used : ℕ → ℕ} (h : Represents z free used) :
    z.freeChunks = (freeBlocks N free).map z.chunk := by
  unfold Zone.freeChunks freeBlocks
  rw [map_flatMap]
  apply flatMap_congr
  intro o ho
  rw [h.lists o (mem_range.mp ho), map_map, map_map]
  rfl

/-- the held blocks, as block indices, are what the zone's free lists leave out. -/
structure Held (s : History M N) (free : ℕ → List ℕ) (bs : List Block) : Prop where
  live : s.live = bs.map s.zone.chunk
  order_lt : ∀ b ∈ bs, b.order < N
  represents : Represents s.zone free (cover bs)

variable {c : Chunk} {order addr : ℕ} {hdr : NodeLayout} {z₀ : Zone M N} {s : History M N}
  {slice : Region} {mem : Memory}

namespace Held

variable {s t : History M N} {free : ℕ → List ℕ} {bs : List Block}

section

variable (h : Held s free bs)

include h

theorem represents_erase (hb : b ∈ bs) :
    Represents s.zone free fun u => cover (bs.erase b) u + b.weight u := by
  rw [funext (Dyadic.cover_erase hb)]
  exact h.represents

theorem exists_block (hc : c ∈ s.live) :
    ∃ b ∈ bs, s.zone.chunk b = c := by
  rwa [h.live, mem_map] at hc

/-- **a held block can be freed**, and what is held afterwards is the rest. -/
theorem dealloc (hb : b ∈ bs) :
    ∃ z free', s.zone.dealloc (s.zone.chunk b).addr (s.zone.chunk b).order = .ok (.ok (), z) ∧
      SameLayout s.zone z ∧ Held ⟨z, s.live.erase (s.zone.chunk b)⟩ free' (bs.erase b) := by
  obtain ⟨z, free', heq, hlay, hrep⟩ := Zone.dealloc_used (h.represents_erase hb) (h.order_lt b hb)
  refine ⟨z, free', heq, hlay, ?_, fun c hc => h.order_lt c (mem_of_mem_erase hc), hrep⟩
  have hchunk : z.chunk = s.zone.chunk := by
    funext c
    simp only [Zone.chunk, hlay.blockAddr]
  rw [hchunk, map_erase (chunk_injective h.represents.geometry), h.live]

/-- **an allocated block is held** on top of the others. -/
theorem alloc (heq : s.zone.alloc order = .ok (.ok addr, z)) :
    ∃ b free', SameLayout s.zone z ∧ Held ⟨z, ⟨addr, order⟩ :: s.live⟩ free' (b :: bs) := by
  have ho : order < N := by
    by_contra hge
    rw [Zone.alloc, if_pos (by omega)] at heq
    cases heq
  rcases Zone.alloc_spec h.represents ho with ⟨hoom, -⟩ | ⟨j, z', free', hok, hlay, hrep⟩
  · cases heq.symm.trans hoom
  · cases heq.symm.trans hok
    refine ⟨⟨order, j⟩, free', hlay, ?_, ?_, ?_⟩
    · have hchunk : z.chunk = s.zone.chunk := by
        funext c
        simp only [Zone.chunk, hlay.blockAddr]
      rw [hchunk, map_cons, ← h.live]
      rfl
    · exact forall_mem_cons.mpr ⟨ho, h.order_lt⟩
    · have hcov : (fun u => cover bs u + (⟨order, j⟩ : Block).weight u) =
          cover (⟨order, j⟩ :: bs) := by
        funext u
        rw [Dyadic.cover_cons, Nat.add_comm]
      rwa [← hcov]

theorem alloc_error {e : BuddyError} (heq : s.zone.alloc order = .ok (.error e, z)) :
    z = s.zone := by
  by_cases ho : order < N
  · rcases Zone.alloc_spec h.represents ho with ⟨hoom, -⟩ | ⟨_, _, _, hok, -⟩
    · cases heq.symm.trans hoom
      rfl
    · cases heq.symm.trans hok
  · rw [Zone.alloc, if_pos (by omega)] at heq
    cases heq
    rfl

theorem step (hst : s.Step t) :
    SameLayout s.zone t.zone ∧ ∃ free' bs', Held t free' bs' := by
  cases hst with
  | alloc order heq =>
    obtain ⟨b, free', hlay, hheld⟩ := h.alloc heq
    exact ⟨hlay, free', b :: bs, hheld⟩
  | allocFails order heq =>
    obtain rfl := h.alloc_error heq
    exact ⟨.refl _, free, bs, h.live, h.order_lt, h.represents⟩
  | dealloc c hc heq =>
    obtain ⟨b, hb, rfl⟩ := h.exists_block hc
    obtain ⟨z, free', heq', hlay, hheld⟩ := h.dealloc hb
    cases heq.symm.trans heq'
    exact ⟨hlay, free', bs.erase b, hheld⟩
  | deallocFails c hc heq =>
    obtain ⟨b, hb, rfl⟩ := h.exists_block hc
    obtain ⟨z, free', heq', -, -⟩ := h.dealloc hb
    cases heq.symm.trans heq'

end

end Held

theorem held_of_reaches (hM : ∃ k, M = 2 ^ k) (hN : 1 ≤ N)
    (h₀ : Zone.fromSlice M N hdr slice mem = .ok z₀) (hrun : Run.Reaches History.Step ⟨z₀, []⟩ s) :
    SameLayout z₀ s.zone ∧ ∃ free bs, Held s free bs := by
  refine Run.Reaches.invariant (P := fun s => SameLayout z₀ s.zone ∧ ∃ free bs, Held s free bs)
    ?_ hrun ?_
  · rintro s t ⟨hlay, free, bs, hheld⟩ hst
    obtain ⟨hlay', hheld'⟩ := hheld.step hst
    exact ⟨hlay.trans hlay', hheld'⟩
  · obtain ⟨free, hrep⟩ := Zone.fromSlice_spec hM hN h₀
    exact ⟨.refl z₀, free, [], rfl, by simp, hrep⟩

/-- The state of a zone as its callers rely on it. -/
structure Consistent (s : History M N) : Prop where
  /-- Held and free blocks are blocks of the zone. -/
  inZone : ∀ c ∈ s.live ++ s.zone.freeChunks, c.InZone s.zone
  apart : (s.live ++ s.zone.freeChunks).Pairwise (Chunk.Apart M)
  /-- They cover the units of the zone and nothing else. -/
  covered : ∀ u, (∃ c ∈ s.live ++ s.zone.freeChunks, c.HasUnit s.zone u) ↔ u < s.zone.nunits
  /-- A bit is set exactly when its block is in the free list of its order, and then it is
  there once. -/
  bits : ∀ o < N, ∀ i < s.zone.nunits / 2 ^ o,
    (s.zone.freeLists o).count (s.zone.blockAddr o i) = if s.zone.bit o i = true then 1 else 0
  alloc_returns : ∀ order, ∃ r z, s.zone.alloc order = .ok (r, z)
  /-- `dealloc` of a held block does not panic, and succeeds. -/
  dealloc_returns : ∀ c ∈ s.live, ∃ z, s.zone.dealloc c.addr c.order = .ok (.ok (), z)

namespace Held

variable {s : History M N} {free : ℕ → List ℕ} {bs : List Block}

theorem chunks_eq (h : Held s free bs) :
    s.live ++ s.zone.freeChunks = (bs ++ freeBlocks N free).map s.zone.chunk := by
  rw [h.live, freeChunks_eq h.represents, map_append]

/-- every unit below `nunits` is covered once by the tiling. -/
theorem cover_eq (h : Held s free bs) (u : ℕ) :
    cover (bs ++ freeBlocks N free) u = if u < s.zone.nunits then 1 else 0 := by
  rw [Dyadic.cover_append, Dyadic.cover_freeBlocks, Nat.add_comm, h.represents.tiling.cover u]

theorem lt_nblocks (h : Held s free bs) (hb : b ∈ bs ++ freeBlocks N free) :
    b.order < N ∧ b.index < s.zone.nblocks b.order := by
  rcases mem_append.mp hb with hb | hb
  · exact ⟨h.order_lt b hb, (h.represents_erase hb).used_lt_nblocks⟩
  · simp only [freeBlocks, mem_flatMap, mem_range, mem_map] at hb
    obtain ⟨o, ho, i, hi, rfl⟩ := hb
    exact ⟨ho, h.represents.lt_nblocks ho hi⟩

/-- a represented zone with its held blocks is consistent. -/
theorem consistent (h : Held s free bs) : Consistent s where
  inZone c hc := by
    rw [h.chunks_eq, mem_map] at hc
    obtain ⟨b, hb, rfl⟩ := hc
    obtain ⟨ho, hi⟩ := h.lt_nblocks hb
    exact inZone_chunk s.zone ho hi
  apart := by
    have hle : ∀ u, cover (bs ++ freeBlocks N free) u ≤ 1 := by
      intro u
      rw [h.cover_eq]
      split_ifs <;> omega
    rw [h.chunks_eq, pairwise_map]
    exact (Dyadic.pairwise_of_cover_le_one hle).imp fun hbc => apart_chunk s.zone hbc
  covered u := by
    have hM := h.represents.geometry.unit_pos
    have hpos : 0 < cover (bs ++ freeBlocks N free) u ↔ u < s.zone.nunits := by
      rw [h.cover_eq]
      split_ifs with hu <;> simp [hu]
    rw [← hpos, Dyadic.cover_pos_iff, h.chunks_eq]
    simp only [mem_map, exists_exists_and_eq_and, hasUnit_chunk s.zone hM]
  bits o ho i hi := by
    have hinj := h.represents.geometry.blockAddr_injective o
    have hcount : (free o).count i = if i ∈ free o then 1 else 0 :=
      (h.represents.tiling.free_nodup ho).count
    rw [h.represents.lists o ho, count_map_of_injective _ _ hinj, hcount]
    simp only [h.represents.bits o ho i hi]
  alloc_returns order := by
    by_cases ho : order < N
    · rcases Zone.alloc_spec h.represents ho with ⟨hoom, -⟩ | ⟨_, z, _, hok, -⟩
      · exact ⟨_, _, hoom⟩
      · exact ⟨_, z, hok⟩
    · exact ⟨_, _, if_pos (by omega)⟩
  dealloc_returns c hc := by
    obtain ⟨b, hb, rfl⟩ := h.exists_block hc
    obtain ⟨z, -, heq, -⟩ := h.dealloc hb
    exact ⟨z, heq⟩

end Held

/-- **A zone is always tiled.**  In every state a zone reaches from `from_slice` by calls of
`alloc` and by freeing held blocks, held and free blocks tile its units, bitmaps and free
lists agree, and the next call does not panic.

SOURCE: buddy-system/src/zone.rs:126-246, buddy-system/src/zone.rs:289-389, buddy-system/src/zone.rs:405-504 -/
theorem reaches_consistent {hdr : NodeLayout} {slice : Region} {mem : Memory} {z₀ : Zone M N}
    {s : History M N} (hM : ∃ k, M = 2 ^ k) (hN : 1 ≤ N)
    (h₀ : Zone.fromSlice M N hdr slice mem = .ok z₀)
    (hrun : Run.Reaches History.Step ⟨z₀, []⟩ s) : Consistent s := by
  obtain ⟨-, free, bs, hheld⟩ := held_of_reaches hM hN h₀ hrun
  exact hheld.consistent

def sampleHeader : NodeLayout := ⟨40, 8, by decide, 3, rfl⟩

def sampleSlice : Region := ⟨1000, 400, by decide, by decide⟩

/-- A zone of 21 units of 16 bytes and three orders, over garbage memory. -/
def sampleZone : Checked (Zone 16 3) := Zone.fromSlice 16 3 sampleHeader sampleSlice fun _ => 255#8

/-- The sample zone after two `alloc`s and a `dealloc`. -/
theorem reaches_consistent_sample : ∃ z₀ s : History 16 3, sampleZone = .ok z₀.zone ∧
    Run.Reaches History.Step z₀ s ∧ s.live = [⟨1056, 1⟩] ∧ Consistent s := by
  have hrun : (do
      let z₀ ← sampleZone
      let (a, z₁) ← z₀.alloc 0
      let (b, z₂) ← z₁.alloc 1
      let (r, _) ← z₂.dealloc 1376 0
      pure (a, b, r) : Checked _) = .ok (.ok 1376, .ok 1056, .ok ()) := by decide +kernel
  simp only [bind_eq_ok] at hrun
  obtain ⟨z₀, h₀, ⟨a, z₁⟩, h₁, ⟨b, z₂⟩, h₂, ⟨r, z₃⟩, h₃, hret⟩ := hrun
  cases hret
  have hreach : Run.Reaches History.Step ⟨z₀, []⟩ ⟨z₃, [⟨1056, 1⟩]⟩ :=
    ((single (History.Step.alloc ⟨z₀, []⟩ 0 h₁)).tail
      (History.Step.alloc ⟨z₁, [⟨1376, 0⟩]⟩ 1 h₂)).tail
      (History.Step.dealloc ⟨z₂, [⟨1056, 1⟩, ⟨1376, 0⟩]⟩ ⟨1376, 0⟩ (by simp) h₃)
  exact ⟨⟨z₀, []⟩, ⟨z₃, [⟨1056, 1⟩]⟩, h₀, hreach, rfl,
    reaches_consistent ⟨4, rfl⟩ (by decide) h₀ hreach⟩

/-- a unit is in no held block exactly when the tiling does not count it as used. -/
theorem Held.cover_eq_zero_iff {bs : List Block} (h : Held s free bs) (u : ℕ) :
    cover bs u = 0 ↔ ∀ c ∈ s.live, ¬ c.HasUnit s.zone u := by
  have hM := h.represents.geometry.unit_pos
  rw [← not_iff_not, ← ne_eq, ← Nat.pos_iff_ne_zero, Dyadic.cover_pos_iff, h.live]
  simp [hasUnit_chunk s.zone hM]

/-- **No lost coalescing.**  In every reached state `alloc` runs out of memory exactly when
no block of the order lies in the zone outside every held block; and when nothing is held
the free blocks of every order are those `from_slice` listed.

SOURCE: buddy-system/src/zone.rs:289-346, buddy-system/src/zone.rs:451-499, buddy-system/src/zone.rs:205-237 -/
theorem alloc_outOfMemory_iff {hdr : NodeLayout} {slice : Region} {mem : Memory} {z₀ : Zone M N}
    {s : History M N} (hM : ∃ k, M = 2 ^ k) (hN : 1 ≤ N)
    (h₀ : Zone.fromSlice M N hdr slice mem = .ok z₀)
    (hrun : Run.Reaches History.Step ⟨z₀, []⟩ s) :
    (∀ order < N, (∃ z, s.zone.alloc order = .ok (.error .outOfMemory, z)) ↔
      ¬ ∃ i, (i + 1) * 2 ^ order ≤ s.zone.nunits ∧
        ∀ u, i * 2 ^ order ≤ u → u < (i + 1) * 2 ^ order → ∀ c ∈ s.live, ¬ c.HasUnit s.zone u) ∧
    (s.live = [] → ∀ o < N, ∀ addr, addr ∈ s.zone.freeLists o ↔ addr ∈ z₀.freeLists o) := by
  obtain ⟨hlay, free, bs, hheld⟩ := held_of_reaches hM hN h₀ hrun
  have hrep := hheld.represents
  refine ⟨fun order ho => ?_, fun hnil o ho addr => ?_⟩
  · rcases Zone.alloc_spec hrep ho with ⟨hoom, hempty⟩ | ⟨j, z, free', hok, hlay', hrep'⟩
    · refine iff_of_true ⟨_, hoom⟩ ?_
      rintro ⟨i, hle, hall⟩
      obtain ⟨p, hp, hop, k, hk, -⟩ := hrep.tiling.exists_free_of_unused (i := i) ho
        fun u hu => ⟨hu.2.trans_le hle, (hheld.cover_eq_zero_iff u).mpr (hall u hu.1 hu.2)⟩
      rw [hempty p hop hp] at hk
      cases hk
    · refine iff_of_false ?_ (not_not_intro ⟨j, ?_, fun u hlo hhi => ?_⟩)
      · rintro ⟨z', hoom⟩
        cases hok.symm.trans hoom
      · rw [← hlay'.nunits]
        exact hrep'.tiling.used_le
      · -- the unit is counted once, for the new block
        have hc := hrep'.tiling.cover u
        rw [Dyadic.weight_of_covers (b := ⟨order, j⟩) ⟨hlo, hhi⟩] at hc
        exact (hheld.cover_eq_zero_iff u).mp (by split_ifs at hc; omega)
  · obtain ⟨free₀, hrep₀⟩ := Zone.fromSlice_spec hM hN h₀
    have hbs : bs = [] := by
      rw [hheld.live] at hnil
      exact List.map_eq_nil_iff.mp hnil
    subst hbs
    have hsame : ∀ i, i ∈ free o ↔ i ∈ free₀ o := by
      intro i
      rw [hrep.tiling.mem_iff_maximal ho, hrep₀.tiling.mem_iff_maximal ho, hlay.nunits]
      rfl
    rw [hrep.lists o ho, hrep₀.lists o ho, hlay.blockAddr, List.mem_map, List.mem_map]
    simp only [hsame]

/-- In the sample zone with one block held. -/
theorem alloc_outOfMemory_iff_sample : ∃ z₀ z₁ : Zone 16 3, sampleZone = .ok z₀ ∧
    z₀.alloc 2 = .ok (.ok 1056, z₁) ∧
    ∀ order < 3, (∃ z, z₁.alloc order = .ok (.error .outOfMemory, z)) ↔
      ¬ ∃ i, (i + 1) * 2 ^ order ≤ z₁.nunits ∧ ∀ u, i * 2 ^ order ≤ u →
        u < (i + 1) * 2 ^ order → ∀ c ∈ [(⟨1056, 2⟩ : Chunk)], ¬ c.HasUnit z₁ u := by
  have hrun : (do
      let z₀ ← sampleZone
      let (a, _) ← z₀.alloc 2
      pure a : Checked _) = .ok (.ok 1056) := by decide +kernel
  simp only [bind_eq_ok] at hrun
  obtain ⟨z₀, h₀, ⟨a, z₁⟩, h₁, hret⟩ := hrun
  cases hret
  have hreach : Run.Reaches History.Step ⟨z₀, []⟩ ⟨z₁, [⟨1056, 2⟩]⟩ :=
    single (History.Step.alloc ⟨z₀, []⟩ 2 h₁)
  exact ⟨z₀, z₁, h₀, h₁, (alloc_outOfMemory_iff ⟨4, rfl⟩ (by decide) h₀ hreach).1⟩

theorem Zone.dealloc_eq_ok {z z' : Zone M N} (h : z.dealloc c.addr c.order = .ok (.ok (), z')) :
    ∃ b : Block, z.chunk b = c ∧ b.order < N ∧ b.index < z.nblocks b.order := by
  unfold Zone.dealloc at h
  split_ifs at h with ho
  · cases h
  cases haddr : alignedAddr M c.addr with
  | none =>
    rw [haddr] at h
    cases h
  | some a =>
    have ha : a = c.addr := by
      unfold alignedAddr at haddr
      split_ifs at haddr
      exact (Option.some.inj haddr).symm
    subst ha
    simp only [haddr] at h
    split_ifs at h with hlow
    · cases h
    rw [bind_eq_ok] at h
    obtain ⟨bytes, hbytes, h⟩ := h
    have hb : bytes = M * 2 ^ c.order := by
      simp only [Zone.bytesPerBlock, bind_eq_ok, Checked.shl_eq_ok, Checked.mul_eq_ok] at hbytes
      obtain ⟨_, ⟨-, rfl⟩, -, rfl⟩ := hbytes
      rfl
    split_ifs at h with hmod
    · cases h
    rw [bind_eq_ok] at h
    obtain ⟨i, hi, h⟩ := h
    simp only [Zone.blockIdx, hbytes, Checked.ok_bind, bind_eq_ok, Checked.sub_eq_ok,
      pure_eq, Except.ok.injEq] at hi
    obtain ⟨_, ⟨-, rfl⟩, rfl⟩ := hi
    split_ifs at h with hrange
    · cases h
    refine ⟨⟨c.order, (c.addr - z.salloc) / bytes⟩, ?_, by dsimp only; omega, ?_⟩
    · have hdm := Nat.div_mul_cancel (Nat.dvd_of_mod_eq_zero (not_not.mp hmod))
      unfold Zone.chunk Zone.blockAddr
      rw [← hb, hdm]
      have hadd : z.salloc + (c.addr - z.salloc) = c.addr := by omega
      rw [hadd]
    · rw [Nat.shiftRight_eq_div_pow] at hrange
      exact Nat.not_le.mp hrange

theorem handedOut_congr {z z' : Zone M N} (h : SameLayout z z') (log : List Event) (u : ℕ) :
    HandedOut z' log u ↔ HandedOut z log u := by
  induction log with
  | nil => exact Iff.rfl
  | cons e log ih =>
    cases e <;> simp only [HandedOut, Chunk.HasUnit, h.salloc, ih]

/-- the handed-out units, as a count. -/
def out (z : Zone M N) (log : List Event) (u : ℕ) : ℕ := if HandedOut z log u then 1 else 0

/-- the zone's free lists tile what is not handed out, and freed blocks are blocks
of the zone with no unit handed out. -/
structure Logged (s : Record M N) (free : ℕ → List ℕ) : Prop where
  represents : Represents s.zone free (out s.zone s.log)
  freed : ∀ c, FreedSince M c s.log → ∃ b : Block, s.zone.chunk b = c ∧ b.order < N ∧
    b.index < s.zone.nblocks b.order ∧ ∀ u, b.Covers u → ¬ HandedOut s.zone s.log u

namespace Logged

variable {s t : Record M N} {free : ℕ → List ℕ}

theorem exists_block_congr {z z' : Zone M N} (hlay : SameLayout z z') {P : ℕ → Prop}
    (h : ∃ b : Block, z.chunk b = c ∧ b.order < N ∧ b.index < z.nblocks b.order ∧ ∀ u,
      b.Covers u → P u) :
    ∃ b : Block, z'.chunk b = c ∧ b.order < N ∧ b.index < z'.nblocks b.order ∧
      ∀ u, b.Covers u → P u := by
  obtain ⟨b, hb, ho, hi, hP⟩ := h
  refine ⟨b, ?_, ho, ?_, hP⟩
  · rw [← hb]
    simp only [Zone.chunk, hlay.blockAddr]
  · rwa [hlay.nblocks]

theorem alloc (h : Logged s free) (heq : s.zone.alloc order = .ok (.ok addr, z)) :
    ∃ free', Logged ⟨z, .alloc ⟨addr, order⟩ :: s.log⟩ free' := by
  have hM := h.represents.geometry.unit_pos
  have ho : order < N := by
    by_contra hge
    rw [Zone.alloc, if_pos (by omega)] at heq
    cases heq
  rcases Zone.alloc_spec h.represents ho with ⟨hoom, -⟩ | ⟨j, z', free', hok, hlay, hrep⟩
  · cases heq.symm.trans hoom
  cases heq.symm.trans hok
  have hunit : ∀ u, (⟨s.zone.blockAddr order j, order⟩ : Chunk).HasUnit s.zone u ↔
      (⟨order, j⟩ : Block).Covers u := hasUnit_chunk s.zone hM ⟨order, j⟩
  refine ⟨free', ?_, fun c hc => ?_⟩
  · have hout : out z (.alloc ⟨s.zone.blockAddr order j, order⟩ :: s.log) =
        fun u => out s.zone s.log u + (⟨order, j⟩ : Block).weight u := by
      funext u
      have hcov := hrep.tiling.cover u
      have hiff := (handedOut_congr hlay (.alloc ⟨s.zone.blockAddr order j, order⟩ :: s.log) u).trans
        (or_congr_left (hunit u))
      unfold out Block.weight at hcov ⊢
      simp only [hiff]
      by_cases hb : (⟨order, j⟩ : Block).Covers u <;> by_cases hh : HandedOut s.zone s.log u
      · simp only [hb, hh, if_true] at hcov
        split_ifs at hcov
        all_goals omega
      all_goals simp [hb, hh]
    rw [hout]
    exact hrep
  · obtain ⟨hapart, hfreed⟩ := hc
    obtain ⟨b, rfl, hbo, hbi, hnot⟩ := h.freed c hfreed
    refine exists_block_congr hlay ⟨b, rfl, hbo, hbi, fun u hu => ?_⟩
    rw [handedOut_congr hlay]
    rintro (hnew | hold)
    · exact not_apart_of_hasUnit hM ((hasUnit_chunk s.zone hM b u).mpr hu) hnew hapart
    · exact hnot u hu hold

theorem dealloc (h : Logged s free) (heq : s.zone.dealloc c.addr c.order = .ok (.ok (), z))
    (hproper : ∀ u, c.HasUnit s.zone u → HandedOut s.zone s.log u) :
    ∃ free', Logged ⟨z, .dealloc c :: s.log⟩ free' := by
  have hM := h.represents.geometry.unit_pos
  obtain ⟨b, rfl, ho, hi⟩ := Zone.dealloc_eq_ok heq
  have hunit := hasUnit_chunk s.zone hM b
  have hout : out s.zone s.log =
      fun u => out s.zone (.dealloc (s.zone.chunk b) :: s.log) u + b.weight u := by
    funext u
    have hin := hproper u
    unfold out Block.weight
    simp only [HandedOut, hunit] at hin ⊢
    by_cases hb : b.Covers u
    · simp [hb, hin hb]
    · simp [hb]
  have hrep := h.represents
  rw [hout] at hrep
  obtain ⟨z', free', heq', hlay, hrep'⟩ := Zone.dealloc_used hrep ho
  cases heq.symm.trans heq'
  refine ⟨free', ?_, fun c hc => ?_⟩
  · have hcongr : out z (.dealloc (s.zone.chunk b) :: s.log) =
        out s.zone (.dealloc (s.zone.chunk b) :: s.log) := by
      funext u
      simp only [out, handedOut_congr hlay]
    rw [hcongr]
    exact hrep'
  · refine exists_block_congr hlay ?_
    simp only [handedOut_congr hlay]
    rcases hc with rfl | hc
    · exact ⟨b, rfl, ho, hi, fun u hu hh => hh.1 ((hunit u).mpr hu)⟩
    · obtain ⟨d, hd, hdo, hdi, hnot⟩ := h.freed c hc
      exact ⟨d, hd, hdo, hdi, fun u hu hh => hnot u hu hh.2⟩

theorem step (h : Logged s free) (hst : s.ProperStep t) : ∃ free', Logged t free' := by
  obtain ⟨hst, hproper⟩ := hst
  cases hst with
  | alloc order heq => exact h.alloc heq
  | allocFails order heq =>
    rcases Nat.lt_or_ge order N with ho | ho
    · rcases Zone.alloc_spec h.represents ho with ⟨hoom, -⟩ | ⟨_, _, _, hok, -⟩
      · cases heq.symm.trans hoom
        exact ⟨free, h⟩
      · cases heq.symm.trans hok
    · rw [Zone.alloc, if_pos ho] at heq
      cases heq
      exact ⟨free, h⟩
  | dealloc c heq => exact h.dealloc heq (hproper c rfl)

end Logged

theorem logged_of_reaches {s : Record M N} (hM : ∃ k, M = 2 ^ k) (hN : 1 ≤ N)
    (h₀ : Zone.fromSlice M N hdr slice mem = .ok z₀)
    (hrun : Run.Reaches Record.ProperStep ⟨z₀, []⟩ s) : ∃ free, Logged s free := by
  refine Run.Reaches.invariant (P := fun s => ∃ free, Logged s free) ?_ hrun ?_
  · rintro s t ⟨free, hlog⟩ hst
    exact hlog.step hst
  · obtain ⟨free, hrep⟩ := Zone.fromSlice_spec hM hN h₀
    refine ⟨free, ?_, fun c hc => hc.elim⟩
    have hout : out z₀ [] = fun _ => 0 := by
      funext u
      exact if_neg id
    rw [hout]
    exact hrep

/-- **When a double free is refused.**  In every state reached by freeing handed-out units
only, a `dealloc` of a block that was freed and not handed out since is refused, and leaves
the zone as it was, exactly when the block is of the top order or some unit of its buddy is
past the end of the zone or handed out.

SOURCE: buddy-system/src/zone.rs:431-449, buddy-system/src/zone.rs:451-504 -/
theorem doubleFree_refused_iff {hdr : NodeLayout} {slice : Region} {mem : Memory} {z₀ : Zone M N}
    {s : Record M N} (hM : ∃ k, M = 2 ^ k) (hN : 1 ≤ N)
    (h₀ : Zone.fromSlice M N hdr slice mem = .ok z₀)
    (hrun : Run.Reaches Record.ProperStep ⟨z₀, []⟩ s) {c : Chunk} (hc : FreedSince M c s.log) :
    (∃ e, s.zone.dealloc c.addr c.order = .ok (.error e, s.zone)) ↔
      c.order + 1 = N ∨ ∃ u, (c.buddy s.zone).HasUnit s.zone u ∧
        (s.zone.nunits ≤ u ∨ HandedOut s.zone s.log u) := by
  obtain ⟨free, hlog⟩ := logged_of_reaches hM hN h₀ hrun
  obtain ⟨⟨o, i⟩, rfl, ho, hi, hnot⟩ := hlog.freed c hc
  have hgeo := hlog.represents.geometry
  have hpos : 0 < M * 2 ^ o := Nat.mul_pos hgeo.unit_pos (Nat.two_pow_pos o)
  have hbuddy : (s.zone.chunk ⟨o, i⟩).buddy s.zone = s.zone.chunk ⟨o, mate i⟩ := by
    simp only [Chunk.buddy, Zone.chunk, Zone.blockAddr, Nat.add_sub_cancel_left,
      Nat.mul_div_cancel _ hpos, Zone.buddyBlockIdx_eq]
  have hzero : ∀ u, out s.zone s.log u = 0 ↔ ¬ HandedOut s.zone s.log u := by
    intro u
    unfold out
    split_ifs with hh <;> simp [hh]
  have hself : ∀ u, (⟨o, i⟩ : Block).Covers u → u < s.zone.nunits ∧ out s.zone s.log u = 0 := by
    intro u hu
    have hle := (s.zone.lt_nblocks_iff o i).mp hi
    exact ⟨hu.2.trans_le hle, (hzero u).mpr (hnot u hu)⟩
  rw [hbuddy]
  simp only [hasUnit_chunk s.zone hgeo.unit_pos]
  refine (Zone.dealloc_refused_iff hlog.represents ho hi).trans ?_
  rw [hlog.represents.tiling.mem_iff_maximal ho, and_iff_right hself]
  simp only [hzero]
  refine or_congr Iff.rfl ?_
  push Not
  refine exists_congr fun u => and_congr_right fun _ => ?_
  rw [or_iff_not_imp_left, Nat.not_le]

/-- In the sample zone the block at 1376 has no buddy, and a double free of it is refused. -/
theorem doubleFree_refused_iff_sample : ∃ (z₀ : Zone 16 3) (s : Record 16 3),
    sampleZone = .ok z₀ ∧ Run.Reaches Record.ProperStep ⟨z₀, []⟩ s ∧
    FreedSince 16 ⟨1376, 0⟩ s.log ∧ ∃ e, s.zone.dealloc 1376 0 = .ok (.error e, s.zone) := by
  have hrun : (do
      let z₀ ← sampleZone
      let (a, z₁) ← z₀.alloc 0
      let (r, z₂) ← z₁.dealloc 1376 0
      pure (a, r, z₂.salloc, z₂.nunits) : Checked _) = .ok (.ok 1376, .ok (), 1056, 21) := by
    decide +kernel
  simp only [bind_eq_ok] at hrun
  obtain ⟨z₀, h₀, ⟨a, z₁⟩, h₁, ⟨r, z₂⟩, h₂, hret⟩ := hrun
  simp only [pure_eq, Except.ok.injEq, Prod.mk.injEq] at hret
  obtain ⟨rfl, rfl, hsalloc, hnunits⟩ := hret
  have hreach : Run.Reaches Record.ProperStep ⟨z₀, []⟩
      ⟨z₂, [.dealloc ⟨1376, 0⟩, .alloc ⟨1376, 0⟩]⟩ := by
    refine (single ⟨Record.Step.alloc ⟨z₀, []⟩ 0 h₁, by simp⟩).tail
      ⟨Record.Step.dealloc ⟨z₁, [.alloc ⟨1376, 0⟩]⟩ ⟨1376, 0⟩ h₂, fun c hc u hu => ?_⟩
    simp only [List.cons.injEq, Event.dealloc.injEq, and_true] at hc
    subst hc
    exact .inl hu
  have hfreed : FreedSince 16 ⟨1376, 0⟩ [.dealloc ⟨1376, 0⟩, .alloc ⟨1376, 0⟩] := .inl rfl
  refine ⟨z₀, _, h₀, hreach, hfreed,
    (doubleFree_refused_iff ⟨4, rfl⟩ (by decide) h₀ hreach hfreed).mpr (.inr ⟨21, ?_,
      .inl hnunits.le⟩)⟩
  simp only [Chunk.buddy, Chunk.HasUnit, hsalloc]
  decide

/-- **A double free that is accepted.**  In the sample zone the blocks at 1376 and 1056 are
handed out, and 1056 is freed: it merges with its free buddies up to order 2, which clears
its own bit.  A second `dealloc` of it succeeds.

SOURCE: buddy-system/src/zone.rs:438-499 -/
theorem doubleFree_after_merge : ∃ (z₀ : Zone 16 3) (s : Record 16 3),
    sampleZone = .ok z₀ ∧ Run.Reaches Record.Step ⟨z₀, []⟩ s ∧
    FreedSince 16 ⟨1056, 0⟩ s.log ∧ ¬ ∃ e, s.zone.dealloc 1056 0 = .ok (.error e, s.zone) := by
  have hrun : (do
      let z₀ ← sampleZone
      let (a, z₁) ← z₀.alloc 0
      let (b, z₂) ← z₁.alloc 0
      let (r, z₃) ← z₂.dealloc 1056 0
      let (r', _) ← z₃.dealloc 1056 0
      pure (a, b, r, r') : Checked _) = .ok (.ok 1376, .ok 1056, .ok (), .ok ()) := by
    decide +kernel
  simp only [bind_eq_ok] at hrun
  obtain ⟨z₀, h₀, ⟨a, z₁⟩, h₁, ⟨b, z₂⟩, h₂, ⟨r, z₃⟩, h₃, ⟨r', z₄⟩, h₄, hret⟩ := hrun
  cases hret
  have hreach : Run.Reaches Record.Step ⟨z₀, []⟩
      ⟨z₃, [.dealloc ⟨1056, 0⟩, .alloc ⟨1056, 0⟩, .alloc ⟨1376, 0⟩]⟩ :=
    ((single (Record.Step.alloc ⟨z₀, []⟩ 0 h₁)).tail
      (Record.Step.alloc ⟨z₁, [.alloc ⟨1376, 0⟩]⟩ 0 h₂)).tail
      (Record.Step.dealloc ⟨z₂, [.alloc ⟨1056, 0⟩, .alloc ⟨1376, 0⟩]⟩ ⟨1056, 0⟩ h₃)
  refine ⟨z₀, _, h₀, hreach, .inl rfl, ?_⟩
  rintro ⟨e, he⟩
  cases h₄.symm.trans he

end Anemone.Buddy
