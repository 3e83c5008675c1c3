import Anemone.Analysis.TheoremBuddyRunsProof

/-!
# The layout of a zone

The bitmaps are sized for the units of the whole region and addressed for the units behind them,
of which there are fewer.  With no order at all nothing is ever listed.
-/

namespace Anemone.Buddy.Zone

variable {M N : ℕ} {hdr : NodeLayout} {slice : Region} {first bytes salloc : ℕ}

/-- **The layout of a zone.**  Whatever region, power of two and positive number of orders pass
the size checks, `from_slice` returns a zone whose bitmaps are apart and inside the zeroed bytes
below `salloc`, whose blocks are inside the region, and whose free lists tile its units.

SOURCE: buddy-system/src/zone.rs:126-268, buddy-system/src/bitmap.rs:21-87 -/
theorem fromSlice_laidOut (hM : ∃ k, M = 2 ^ k) (hN : 1 ≤ N)
    (h : Accepted M N hdr slice first bytes salloc) (mem : Memory) :
    ∃ z, fromSlice M N hdr slice mem = .ok z ∧ LaidOut slice first bytes z := by
  obtain ⟨z, free, hz, hrep, rfl, hbelow, hend, hbytes, htable⟩ := h.fromSlice_returns hM hN mem
  have hgeo := hrep.geometry
  refine ⟨z, hz, fun o p hop hp => ?_, fun o ho => ?_, hbelow, fun o ho i hi => ?_, free, hrep.lists,
    hrep.tiling⟩
  · refine ⟨_, _, hgeo.bitmapForOrder_eq (hop.trans hp), hgeo.bitmapForOrder_eq hp, ?_⟩
    rw [← bitmapLen_eq]
    exact hgeo.bitmaps_apart o p hop hp
  · have hsucc := bitmapsBelow_succ z.nunits o
    have hmono := bitmapsBelow_mono z.nunits (show o + 1 ≤ N from ho)
    refine ⟨_, hgeo.bitmapForOrder_eq ho, ?_, ?_⟩
    · simp only [htable o ho, Nat.le_add_right]
    · simp only [← bitmapLen_eq, htable o ho, nblocks]
      omega
  · have hle := z.blockAddr_le (show i < z.nblocks o from hi)
    refine ⟨_, hgeo.blockPtr_eq ho hi, ?_, by omega⟩
    unfold blockAddr
    omega

theorem accepted_sample : Accepted 16 3 sampleHeader sampleSlice 40 7 1056 :=
  ⟨⟨1000, by decide, by decide⟩, by decide, by decide, by decide⟩

theorem fromSlice_laidOut_sample : Accepted 16 3 sampleHeader sampleSlice 40 7 1056 ∧
    ∃ z, sampleZone = .ok z ∧ LaidOut sampleSlice 40 7 z :=
  ⟨accepted_sample, fromSlice_laidOut ⟨4, rfl⟩ (by decide) accepted_sample _⟩

/-- With no order the units behind the header are in no free list. -/
theorem fromSlice_no_order : Accepted 16 0 sampleHeader sampleSlice 40 0 1040 ∧
    ∃ z : Zone 16 0, fromSlice 16 0 sampleHeader sampleSlice (fun _ => 255#8) = .ok z ∧
      ¬ LaidOut sampleSlice 40 0 z := by
  refine ⟨⟨⟨1000, by decide, by decide⟩, by decide, by decide, by decide⟩, _, rfl, fun h => ?_⟩
  obtain ⟨free, -, htiling⟩ := h.tiles
  have hcover := htiling.cover 0
  rw [if_pos (by decide)] at hcover
  simp [Dyadic.load] at hcover

end Anemone.Buddy.Zone
