import Anemone.Analysis.ForkAreas

/-!
# The registry of areas along every run

Each call leaves the map of areas alone, puts one area in, or runs a script, and a script keeps
the registry as long as what it inserts may be placed (`Registry.runOps`).  Objects handed in from
outside stay inside an anonymous object if they rest on one.
-/

namespace Anemone.Uspace

open Checked (bind_eq_ok)
open Layout Ranges.VirtPageRange List
open Ranges (VirtPageRange)
open Extents (WellKeyed Apart insertAll)
open UserSpace (validateRange validateRange_eq_ok)

variable {L : Layout} {s : UserSpace}

/-- The four reservations of a new address space. -/
def reservations (L : Layout) (stackObject heapObject : ℕ) : List VmArea :=
  [.newReserved L.stackRange 0 .rw .copyOnWrite .empty .stack
      (.anon stackObject L.maxUserStackPages),
   .newReserved L.stackGuardRange 0 .empty .shared .empty .guard .empty,
   .newReserved L.heapRange 0 .rw .copyOnWrite .empty .heap (.anon heapObject L.maxHeapPages),
   .newReserved Layout.zeroGuardRange 0 .empty .shared .empty .guard .empty]

theorem reservations_spec (L : Layout) (stackObject heapObject : ℕ) :
    (∀ a ∈ reservations L stackObject heapObject, Placed L a) ∧
      (reservations L stackObject heapObject).Pairwise Apart := by
  have hfits := L.fits
  have hstack := L.stack_pos
  have hheap := L.heap_pos
  constructor
  · intro a ha
    simp only [reservations, mem_cons, not_mem_nil, or_false] at ha
    rcases ha with rfl | rfl | rfl | rfl
    all_goals
      refine ⟨?_, ?_, ?_⟩
      · simp only [VmArea.newReserved, stackRange, stackGuardRange, heapRange, zeroGuardRange]
        omega
      · simp only [VmArea.newReserved, stackRange, stackGuardRange, heapRange, zeroGuardRange, stop]
        omega
      · intro maxPages hmax
        simp only [VmArea.newReserved, VmObject.anonPages, Option.some.injEq, reduceCtorEq] at hmax
        try
          subst hmax
          simp [VmArea.newReserved, stackRange, heapRange]
  · simp only [reservations, Apart, Extent.lo, Extent.hi, VmArea.newReserved, stackRange,
      stackGuardRange, heapRange, zeroGuardRange, stop,
      pairwise_cons, mem_cons, not_mem_nil, or_false, forall_eq_or_imp, forall_eq,
      List.Pairwise.nil, and_true, false_implies, implies_true]
    omega

/-- **A new address space** has its four reservations, no leaf, and the program
break at the start of the heap. -/
theorem new_eq (L : Layout) (stackObject heapObject : ℕ) : UserSpace.new L stackObject heapObject =
      .ok ⟨∅, insertAll ∅ (reservations L stackObject heapObject),
        ⟨L.stackRange.start, L.stackRange.stop - L.initUserStackPages⟩,
        ⟨L.heapRange.start, toVirtAddr L.heapRange.start⟩⟩ := by
  have hfits := L.fits
  have hheap := L.heap_pos
  simp only [UserSpace.new, bind_eq_ok, insertNew_eq_ok]
  refine ⟨_, ⟨by simp, rfl⟩, _, ⟨?_, rfl⟩, _, ⟨?_, rfl⟩, _, ⟨?_, rfl⟩, rfl⟩
  all_goals
    simp only [OrderedMap.get_insert, VmArea.newReserved, stackRange,
      stackGuardRange, heapRange, zeroGuardRange]
    repeat rw [if_neg (by omega)]
    simp

theorem new_registered (L : Layout) (stackObject heapObject : ℕ) :
    ∃ s, UserSpace.new L stackObject heapObject = .ok s ∧ Registered L s := by
  obtain ⟨hplaced, hapart⟩ := reservations_spec L stackObject heapObject
  have hempty : WellKeyed (∅ : OrderedMap VmArea) := Extents.wellKeyed_empty
  obtain ⟨hwk, -, -, hfound⟩ := hempty.insertAll VmArea.view
    (fun a ha => (hplaced a ha).start_lt_stop) (fun a _ k w hw => by simp at hw) hapart
  refine ⟨_, new_eq L stackObject heapObject, Registry.of_placed hwk ?_ ?_ ?_ ?_ ?_, rfl, rfl⟩
  · intro k a ha
    rcases Extents.mem_insertAll ha with hin | hget
    · exact hplaced a hin
    · simp at hget
  · exact ⟨_, hfound _ (.head _), rfl, rfl⟩
  · exact ⟨_, hfound _ (.tail _ (.head _)), rfl, rfl⟩
  · exact ⟨_, hfound _ (.tail _ (.tail _ (.head _))), rfl, rfl⟩
  · exact ⟨_, hfound _ (.tail _ (.tail _ (.tail _ (.head _)))), rfl, rfl⟩

theorem registered_of_new {stackObject heapObject : ℕ}
    (h : UserSpace.new L stackObject heapObject = .ok s) : Registered L s := by
  obtain ⟨t, ht, hreg⟩ := new_registered L stackObject heapObject
  rw [h] at ht
  cases ht
  exact hreg

variable {range : VirtPageRange} {ops : List VmOperation}

theorem composeUnmapRange_no_insert (h : s.composeUnmapRange L range = .ok ops) (a : VmArea) :
    .insert a ∉ ops := by
  unfold UserSpace.composeUnmapRange at h
  split at h
  · cases h
  · by_cases hres : HasReserved (s.findIntersectionStarts range)
    · rw [composeUnmapOps_error hres] at h
      cases h
    · rw [composeUnmapOps_ok hres] at h
      cases h
      exact not_insert_mem_unmapScript a

variable {prot : Protection} {targetStart : ℕ} {source : VirtPageRange}

theorem composeProtectRange_eq_ok (hm : WellKeyed s.vmas)
    (h : s.composeProtectRange L range prot = .ok (.ok ops)) :
    validateRange L range = .ok () ∧
      ops = (s.findIntersectionStarts range).flatMap (protectScript range prot) := by
  unfold UserSpace.composeProtectRange UserSpace.findIntersectionStartsCovering at h
  cases hvalid : validateRange L range with
  | error e =>
    rw [hvalid] at h
    cases h
  | ok u =>
    have hrange := UserSpace.start_lt_stop_of_valid hvalid
    have hmeeting := UserSpace.meeting_findIntersectionStarts hm range
    rw [hvalid] at h
    simp only at h
    split_ifs at h
    · by_cases hres : HasReserved (s.findIntersectionStarts range)
      · simp only [composeProtectOps_error hrange hmeeting prot hres] at h
        cases h
      · simp only [composeProtectOps_ok hrange hmeeting prot hres] at h
        cases h
        exact ⟨rfl, rfl⟩
    · cases h

theorem insert_mem_protectScript {k : ℕ} {a b : VmArea} (ha : a.range.start < a.range.stop)
    (hrange : range.start < range.stop) (hmeet : a.range.intersects range)
    (hb : .insert b ∈ protectScript range prot (k, a)) :
    ∃ c, IsPiece a c ∧ b.range = c.range ∧ b.poffset = c.poffset ∧ b.backing = c.backing := by
  obtain ⟨hstart, hstop, hne⟩ := cutRange_spec hmeet
  unfold protectScript at hb
  split_ifs at hb
  · cases hb
  · simp only [mem_append, mem_cons, not_mem_nil, or_false, reduceCtorEq,
      mem_map, VmOperation.insert.injEq, exists_eq_right, false_or, VmArea.protectParts] at hb
    rcases hb with (hleft | hmid) | hright
    · split_ifs at hleft with hlt
      · cases mem_singleton.mp hleft
        exact ⟨_, VmArea.isPiece_below (by omega) (by omega), rfl, rfl, rfl⟩
      · cases hleft
    · rw [hmid]
      exact ⟨_, isPiece_cut ha hrange hmeet, rfl, rfl, rfl⟩
    · split_ifs at hright with hlt
      · cases mem_singleton.mp hright
        exact ⟨_, VmArea.isPiece_above (by omega) (by omega), rfl, rfl, rfl⟩
      · cases hright

theorem collectMovableVmas_eq_ok (hm : WellKeyed s.vmas) {moved : List VmArea}
    (h : s.collectMovableVmas L source targetStart = .ok (.ok moved)) :
    validateRange L source = .ok () ∧
      moved = (s.findIntersectionStarts source).map fun e => e.2.moved source targetStart := by
  rcases UserSpace.collectMovableVmas_cases (L := L) hm source targetStart with
    ⟨-, e, he⟩ | ⟨⟨hvalid, -, -⟩, hok⟩
  · rw [he] at h
    cases h
  · rw [hok] at h
    cases h
    exact ⟨hvalid, rfl⟩

variable {a : VmArea} {object : ℕ}

theorem Placed.moved (h : Placed L a) (hsource : source.start < source.stop)
    (hmeet : a.range.intersects source) (htarget : targetStart + source.npages ≤ L.uspaceTopVpn) :
    Placed L (a.moved source targetStart) := by
  obtain ⟨hstart, hstop, hne⟩ := cutRange_spec hmeet
  have hpiece := h.piece (isPiece_cut h.start_lt_stop hsource hmeet)
  have hlen : (a.moved source targetStart).range.npages =
    (a.slice (cutRange a source)).range.npages := by
    simp only [VmArea.moved, VmArea.slice, stop]
    omega
  refine ⟨?_, ?_, ?_⟩
  · rw [hlen]
    exact hpiece.nonempty
  · simp only [VmArea.moved, stop] at *
    omega
  · intro maxPages hmax
    rw [hlen]
    exact hpiece.within maxPages hmax

theorem placed_tail {oldNpages newNpages : ℕ} (template : VmArea) (hlt : oldNpages < newNpages)
    (htarget : targetStart + newNpages ≤ L.uspaceTopVpn) :
    Placed L (UserSpace.anonymousTailFromTemplate object template
      ⟨targetStart + oldNpages, newNpages - oldNpages⟩) := by
  refine ⟨?_, ?_, ?_⟩
  · simp only [UserSpace.anonymousTailFromTemplate, VmArea.new]
    omega
  · simp only [UserSpace.anonymousTailFromTemplate, VmArea.new, stop]
    omega
  · intro maxPages hmax
    cases hmax
    simp [UserSpace.anonymousTailFromTemplate, VmArea.new]

namespace Registered

variable {s s' : UserSpace} (h : Registered L s)

include h

theorem runTransaction (hrun : s.runTransaction ops = .ok s')
    (hins : ∀ a, .insert a ∈ ops → Placed L a) : Registered L s' := by
  obtain ⟨vmas, hops, rfl⟩ := UserSpace.runTransaction_eq_ok.mp hrun
  exact ⟨h.registry.runOps hops hins, h.stack_svpn, h.heap_svpn⟩

variable {r : Except SysError Unit}

theorem unmapInner (hcall : s.unmapInner L range = .ok (r, s')) : Registered L s' := by
  unfold UserSpace.unmapInner at hcall
  split at hcall
  · cases hcall
    exact h
  · next ops hops =>
    obtain ⟨t, hrun, ht⟩ := bind_eq_ok.mp hcall
    cases ht
    exact h.runTransaction hrun fun a ha => absurd ha (composeUnmapRange_no_insert hops a)

theorem insertVma (hwithin : a.ViewsWithin)
    (hcall : s.insertVma L a = .ok (r, s')) : Registered L s' := by
  unfold UserSpace.insertVma at hcall
  split at hcall
  · next havail =>
    obtain ⟨hvalid, hroom⟩ := UserSpace.isRangeAvail_iff.mp havail
    obtain ⟨hne, htop, -⟩ := validateRange_eq_ok.mp hvalid
    obtain ⟨vmas, hins, ht⟩ := bind_eq_ok.mp hcall
    cases ht
    obtain ⟨hfree, rfl⟩ := insertNew_eq_ok.mp hins
    refine ⟨h.registry.edits (.add a hroom hfree) ?_, h.stack_svpn, h.heap_svpn⟩
    rintro b hb
    cases hb
    exact ⟨Nat.pos_of_ne_zero hne, htop, hwithin⟩
  · cases hcall
    exact h

theorem replaceRange (hwithin : a.ViewsWithin) (hcall : s.replaceRange L range a = .ok (r, s')) :
    Registered L s' := by
  unfold UserSpace.replaceRange at hcall
  split at hcall
  · cases hcall
    exact h
  · next hrange =>
    obtain ⟨_, -, hcall⟩ := bind_eq_ok.mp hcall
    split at hcall
    · cases hcall
      exact h
    · next ops hops =>
      obtain ⟨t, hrun, ht⟩ := bind_eq_ok.mp hcall
      cases ht
      apply h.runTransaction hrun
      intro b hb
      rcases mem_append.mp hb with hb | hb
      · exact absurd hb (composeUnmapRange_no_insert hops b)
      · cases mem_singleton.mp hb
        have hvalid : validateRange L a.range = .ok () := by
          rw [not_not.mp hrange]
          unfold UserSpace.composeUnmapRange at hops
          split at hops
          · cases hops
          · assumption
        obtain ⟨hne, htop, -⟩ := validateRange_eq_ok.mp hvalid
        exact ⟨Nat.pos_of_ne_zero hne, htop, hwithin⟩

/-- The three mapping calls keep the registry if the area they build stays inside its
anonymous object. -/
theorem mapArea {hint : Option (ℕ × Bool)} {clobber : Bool} {npages : ℕ}
    {area : VirtPageRange → Except SysError VmArea}
    (harea : ∀ vpn a, area ⟨vpn, npages⟩ = .ok a → a.ViewsWithin) {r : Except SysError ℕ}
    (hcall : s.mapArea L hint clobber npages area = .ok (r, s')) : Registered L s' := by
  obtain ⟨start, -, hcall⟩ := bind_eq_ok.mp hcall
  split at hcall
  · cases hcall
    exact h
  · next vpn =>
    split at hcall
    · cases hcall
      exact h
    · cases hcall
      exact h
    · next vma _ hvma =>
      have hwithin := harea vpn vma hvma
      obtain ⟨⟨r', t⟩, hplace, ht⟩ := bind_eq_ok.mp hcall
      cases ht
      unfold UserSpace.placeArea at hplace
      split at hplace
      · exact h.replaceRange hwithin hplace
      · exact h.insertVma hwithin hplace

theorem heapVma_eq : ∃ a, s.heapVma = .ok a ∧ a.range = L.heapRange := by
  obtain ⟨a, ha, hrange, -⟩ := h.registry.heap
  refine ⟨a, ?_, hrange⟩
  unfold UserSpace.heapVma
  rw [h.heap_svpn, ha]
  rfl

theorem protectRange (hcall : s.protectRange L range prot = .ok (r, s')) : Registered L s' := by
  have hm := h.registry.wellKeyed
  obtain ⟨heap, -, hcall⟩ := bind_eq_ok.mp hcall
  split at hcall
  · cases hcall
    exact ⟨h.registry, h.stack_svpn, h.heap_svpn⟩
  split at hcall
  · cases hcall
    exact h
  · cases hcall
    exact h
  obtain ⟨composed, hcomposed, hcall⟩ := bind_eq_ok.mp hcall
  split at hcall
  · cases hcall
    exact h
  · next ops =>
    obtain ⟨t, hrun, ht⟩ := bind_eq_ok.mp hcall
    cases ht
    apply h.runTransaction hrun
    intro b hb
    obtain ⟨hvalid, hops⟩ := composeProtectRange_eq_ok hm hcomposed
    rw [hops] at hb
    obtain ⟨⟨k, a⟩, he, hb⟩ := mem_flatMap.mp hb
    obtain ⟨hk, hmeet⟩ := (UserSpace.mem_findIntersectionStarts hm).mp he
    have hpart := insert_mem_protectScript (hm.nonempty k a hk)
      (UserSpace.start_lt_stop_of_valid hvalid) hmeet hb
    obtain ⟨c, hpiece, hrange, hoff, hback⟩ := hpart
    have hplaced := (h.registry.placed hk).piece hpiece
    refine ⟨?_, ?_, ?_⟩
    · rw [hrange]; exact hplaced.nonempty
    · rw [hrange]; exact hplaced.below_top
    · intro maxPages hmax
      rw [hback] at hmax
      rw [hrange, hoff]
      exact hplaced.within maxPages hmax

variable {mapping : RemapMapping}

theorem moveTo {r : Except SysError ℕ} (hcall : s.moveTo L object mapping targetStart = .ok (r, s')) :
    Registered L s' := by
  have hm := h.registry.wellKeyed
  unfold UserSpace.moveTo at hcall
  simp only at hcall
  split at hcall
  · cases hcall
    exact h
  next hvalid =>
  obtain ⟨hnew, htop, -⟩ := validateRange_eq_ok.mp hvalid
  split at hcall
  · cases hcall
    exact h
  obtain ⟨collected, hcollected, hcall⟩ := bind_eq_ok.mp hcall
  split at hcall
  · cases hcall
    exact h
  next moved =>
  obtain ⟨hsource, hmoved⟩ := collectMovableVmas_eq_ok hm hcollected
  have hsourceNe := UserSpace.start_lt_stop_of_valid hsource
  obtain ⟨grown, hgrown, hcall⟩ := bind_eq_ok.mp hcall
  split at hcall
  · cases hcall
    exact h
  · cases hcall
    exact h
  next targetOps oldOps htargetOps holdOps =>
  obtain ⟨t, hrun, ht⟩ := bind_eq_ok.mp hcall
  cases ht
  apply h.runTransaction hrun
  intro b hb
  simp only [stop] at htop
  have hplacedMoved : ∀ c ∈ moved, Placed L c := by
    intro c hc
    rw [hmoved] at hc
    obtain ⟨⟨k, a⟩, he, rfl⟩ := mem_map.mp hc
    obtain ⟨hk, hmeet⟩ := (UserSpace.mem_findIntersectionStarts hm).mp he
    apply (h.registry.placed hk).moved hsourceNe hmeet
    simp only
    omega
  simp only [mem_append, mem_map, VmOperation.insert.injEq, exists_eq_right] at hb
  rcases hb with (hb | hb) | hb
  · unfold UserSpace.clearTarget at htargetOps
    split at htargetOps
    · exact absurd hb (composeUnmapRange_no_insert htargetOps b)
    · cases htargetOps
      cases hb
  · exact absurd hb (composeUnmapRange_no_insert holdOps b)
  · unfold UserSpace.growMoved at hgrown
    split at hgrown
    · next hgt =>
      obtain ⟨template, -, hg⟩ := bind_eq_ok.mp hgrown
      cases hg
      rcases mem_append.mp hb with hb | hb
      · exact hplacedMoved b hb
      · cases mem_singleton.mp hb
        exact placed_tail template hgt htop
    · cases hgrown
      exact hplacedMoved b hb

theorem remapInPlace {r : Except SysError ℕ}
    (hcall : s.remapInPlace L object mapping = .ok (some (r, s'))) : Registered L s' := by
  unfold UserSpace.remapInPlace at hcall
  simp only at hcall
  split at hcall
  · obtain ⟨collected, -, hcall⟩ := bind_eq_ok.mp hcall
    split at hcall
    · cases hcall
      exact h
    split at hcall
    · cases hcall
      exact h
    · obtain ⟨⟨r', t⟩, hunmap, ht⟩ := bind_eq_ok.mp hcall
      cases ht
      exact h.unmapInner hunmap
  · split at hcall
    · obtain ⟨collected, -, hcall⟩ := bind_eq_ok.mp hcall
      split at hcall
      · cases hcall
        exact h
      · obtain ⟨template, -, hcall⟩ := bind_eq_ok.mp hcall
        obtain ⟨⟨r', t⟩, hins, ht⟩ := bind_eq_ok.mp hcall
        cases ht
        apply h.insertVma _ hins
        intro maxPages hmax
        cases hmax
        simp [UserSpace.anonymousTailFromTemplate, VmArea.new]
    · split at hcall
      · cases hcall
      · cases hcall
        exact h

theorem remapRange {r : Except SysError ℕ} (hcall : s.remapRange L object mapping = .ok (r, s')) :
    Registered L s' := by
  unfold UserSpace.remapRange at hcall
  split at hcall
  · cases hcall
    exact h
  split at hcall
  · cases hcall
    exact h
  split at hcall
  · exact h.moveTo hcall
  obtain ⟨done, hdone, hcall⟩ := bind_eq_ok.mp hcall
  split at hcall
  · cases hcall
    exact h.remapInPlace hdone
  obtain ⟨avail, -, hcall⟩ := bind_eq_ok.mp hcall
  split at hcall
  · cases hcall
    exact h
  · exact h.moveTo hcall

theorem setBrkInner {mem mem' : Memory} {brk : ℕ}
    (hcall : s.setBrkInner mem brk = .ok (r, s', mem')) : Registered L s' := by
  obtain ⟨heap, -, hcall⟩ := bind_eq_ok.mp hcall
  split at hcall
  · cases hcall
    exact h
  simp only at hcall
  split at hcall
  · split at hcall
    all_goals
      cases hcall
      exact ⟨h.registry, h.stack_svpn, h.heap_svpn⟩
  · cases hcall
    exact ⟨h.registry, h.stack_svpn, h.heap_svpn⟩

end Registered

theorem VmArea.shadowed_spec (a : VmArea) (object : ℕ) :
    (a.shadowed object).range = a.range ∧ (a.shadowed object).poffset = a.poffset ∧
      (a.shadowed object).reservation = a.reservation ∧
      (a.shadowed object).backing.anonPages = a.backing.anonPages := by
  unfold VmArea.shadowed
  split
  all_goals exact ⟨rfl, rfl, rfl, rfl⟩

theorem Registry.shadowed {m m' : OrderedMap VmArea} (h : Registry L m) (objects : ℕ → ℕ)
    (hget : ∀ k : ℕ, m'[k]? = (m[k]?).map fun a => a.shadowed (objects k)) : Registry L m' := by
  have hfrom : ∀ (k : ℕ) (a : VmArea), m'[k]? = some a → ∃ b, m[k]? = some b ∧
      a.range = b.range ∧ a.poffset = b.poffset ∧ a.backing.anonPages = b.backing.anonPages := by
    intro k a ha
    rw [hget] at ha
    obtain ⟨b, hb, rfl⟩ := Option.map_eq_some_iff.mp ha
    obtain ⟨hrange, hoff, -, hpages⟩ := b.shadowed_spec (objects k)
    exact ⟨b, hb, hrange, hoff, hpages⟩
  have hreserved : ∀ {range r}, Reserved m range r → Reserved m' range r := by
    rintro range r ⟨a, ha, hrange, hres⟩
    obtain ⟨hrange', -, hres', -⟩ := a.shadowed_spec (objects range.start)
    refine ⟨a.shadowed (objects range.start), ?_, hrange'.trans hrange, hres'.trans hres⟩
    rw [hget, ha]
    rfl
  refine ⟨?_, ?_, ?_, ?_, hreserved h.stack, hreserved h.stackGuard, hreserved h.heap,
    hreserved h.zeroGuard, ?_⟩
  · intro k a ha
    obtain ⟨b, hb, hrange, -, -⟩ := hfrom k a ha
    rw [hrange]
    exact h.keyed k b hb
  · intro k a ha
    obtain ⟨b, hb, hrange, -, -⟩ := hfrom k a ha
    rw [hrange]
    exact h.nonempty k b hb
  · intro k k' a a' ha ha' hne
    obtain ⟨b, hb, hrange, -, -⟩ := hfrom k a ha
    obtain ⟨b', hb', hrange', -, -⟩ := hfrom k' a' ha'
    rw [hrange, hrange']
    exact h.disjoint k k' b b' hb hb' hne
  · intro k a ha
    obtain ⟨b, hb, hrange, -, -⟩ := hfrom k a ha
    rw [hrange]
    exact h.below_top k b hb
  · intro k a ha maxPages hmax
    obtain ⟨b, hb, hrange, hoff, hpages⟩ := hfrom k a ha
    rw [hpages] at hmax
    rw [hrange, hoff]
    exact h.within k b hb maxPages hmax

theorem Registered.forkInner {s' child : UserSpace} (h : Registered L s) {mem mem' : Memory}
    {tables : Bool} (hcall : s.forkInner mem tables = .ok (.ok child, s', mem')) :
    Registered L s' ∧ Registered L child := by
  obtain ⟨ids, spec, hs', hchild, -⟩ := UserSpace.forkInner_ok hcall
  refine ⟨⟨h.registry.shadowed ids spec.parent_get, ?_, ?_⟩,
    ⟨h.registry.shadowed (fun k => ids k + 1) spec.child_get, ?_, ?_⟩⟩
  · rw [hs']; exact h.stack_svpn
  · rw [hs']; exact h.heap_svpn
  · rw [hchild]; exact h.stack_svpn
  · rw [hchild]; exact h.heap_svpn

/-- An area inside its anonymous object gives up its part of a range without an assertion
failing. -/
theorem discardRange_of_within (hwithin : a.ViewsWithin) (ha : a.range.start < a.range.stop)
    (hrange : range.start < range.stop) (hmeet : a.range.intersects range) (mem : Memory) :
    ∃ mem', a.backing.discardRange mem (a.vmoPidx (cutRange a range).start)
      (a.vmoPidx (cutRange a range).stop) = .ok mem' := by
  obtain ⟨hstart, hstop, hne⟩ := cutRange_spec hmeet
  have hle : a.vmoPidx (cutRange a range).start < a.vmoPidx (cutRange a range).stop := by
    unfold VmArea.vmoPidx
    omega
  have hlen : a.vmoPidx (cutRange a range).stop ≤ a.poffset + a.range.npages := by
    unfold VmArea.vmoPidx
    simp only [stop] at *
    omega
  cases hback : a.backing with
  | anon object maxPages =>
    have hmax := hwithin maxPages (by rw [hback]; rfl)
    exact ⟨_, bind_eq_ok.mpr ⟨(), Checked.assert_of _ ⟨by omega, by omega, by omega⟩, rfl⟩⟩
  | shadow object parent =>
    exact ⟨_, bind_eq_ok.mpr ⟨(), Checked.assert_of _ hle.le, rfl⟩⟩
  | empty | external => exact ⟨mem, rfl⟩

theorem discardAreas_ok (hrange : range.start < range.stop) {es : List (ℕ × VmArea)}
    (hes : Meeting range es) (hwithin : ∀ e ∈ es, e.2.ViewsWithin)
    (mem : Memory) : ∃ mem', UserSpace.discardAreas range es mem = .ok mem' := by
  induction es generalizing mem with
  | nil => exact ⟨mem, rfl⟩
  | cons e es ih =>
    obtain ⟨hne, hmeet⟩ := hes e mem_cons_self
    obtain ⟨mem₁, hfirst⟩ := discardRange_of_within (hwithin e mem_cons_self) hne hrange hmeet mem
    obtain ⟨mem', hrest⟩ := ih hes.tail (fun x hx => hwithin x (mem_cons_of_mem _ hx)) mem₁
    refine ⟨mem', ?_⟩
    simp only [UserSpace.discardAreas]
    rw [hfirst]
    exact hrest

/-- **Discarding a range reaches no assertion.** -/
theorem Registered.discardRangeInner (h : Registered L s) (mem : Memory) (range : VirtPageRange) :
    ∃ r, s.discardRangeInner L mem range = .ok r := by
  have hm := h.registry.wellKeyed
  unfold UserSpace.discardRangeInner
  split
  · exact ⟨_, rfl⟩
  · next starts hstarts =>
    unfold UserSpace.findIntersectionStartsCovering at hstarts
    split at hstarts
    · cases hstarts
    · next hvalid =>
      simp only at hstarts
      split_ifs at hstarts
      · cases hstarts
        obtain ⟨mem', hdone⟩ := discardAreas_ok (UserSpace.start_lt_stop_of_valid hvalid)
          (UserSpace.meeting_findIntersectionStarts hm range)
          (fun e he => h.registry.within e.1 e.2
            ((UserSpace.mem_findIntersectionStarts hm).mp he).1) mem
        rw [hdone]
        exact ⟨_, rfl⟩

/-- One call on an address space, with whatever it returns.  After a fork the run goes on
with the parent or with the child. -/
inductive UserSpace.Step (L : Layout) (s : UserSpace) : UserSpace → Prop
  | mapAnonymous {s' : UserSpace} (object : ℕ) (mapping : AnonymousMapping)
      {r : Except SysError ℕ} (call : s.mapAnonymous L object mapping = .ok (r, s')) : Step L s s'
  | mapObject {s' : UserSpace} (mapping : ObjectMapping)
      (within : ∀ maxPages, mapping.backing.anonPages = some maxPages →
        mapping.poffset + mapping.npages ≤ maxPages)
      {r : Except SysError ℕ} (call : s.mapObject L mapping = .ok (r, s')) : Step L s s'
  | mapFile {s' : UserSpace} (object : ℕ) (mapping : FileMapping)
      {r : Except SysError ℕ} (call : s.mapFile L object mapping = .ok (r, s')) : Step L s s'
  | insertVma {s' : UserSpace} (vma : VmArea) (within : vma.ViewsWithin)
      {r : Except SysError Unit} (call : s.insertVma L vma = .ok (r, s')) : Step L s s'
  | unmapInner {s' : UserSpace} (range : VirtPageRange)
      {r : Except SysError Unit} (call : s.unmapInner L range = .ok (r, s')) : Step L s s'
  | protectRange {s' : UserSpace} (range : VirtPageRange) (prot : Protection)
      {r : Except SysError Unit} (call : s.protectRange L range prot = .ok (r, s')) : Step L s s'
  | remapRange {s' : UserSpace} (object : ℕ) (mapping : RemapMapping)
      {r : Except SysError ℕ} (call : s.remapRange L object mapping = .ok (r, s')) : Step L s s'
  | setBrkInner {s' : UserSpace} (mem : Memory) (brk : ℕ) {r : Except SysError Unit}
      {mem' : Memory} (call : s.setBrkInner mem brk = .ok (r, s', mem')) : Step L s s'
  | forkParent {s' : UserSpace} (mem : Memory) (tables : Bool) {r : Except SysError UserSpace}
      {mem' : Memory} (call : s.forkInner mem tables = .ok (r, s', mem')) : Step L s s'
  | forkChild {s' child : UserSpace} (mem : Memory) (tables : Bool) {mem' : Memory}
      (call : s.forkInner mem tables = .ok (.ok child, s', mem')) : Step L s child

/-- **Every call keeps the registry.** -/
theorem Registered.step {t : UserSpace} (h : Registered L s) (hstep : s.Step L t) :
    Registered L t := by
  cases hstep with
  | mapAnonymous object mapping call =>
    apply h.mapArea _ call
    rintro vpn a ha maxPages hmax
    cases ha
    cases hmax
    simp [VmArea.new]
  | mapObject mapping within call =>
    apply h.mapArea _ call
    rintro vpn a ha
    cases ha
    exact within
  | mapFile object mapping call =>
    apply h.mapArea _ call
    rintro vpn a ha maxPages hmax
    split at ha
    · cases ha
      split at hmax <;> cases hmax
    · cases ha
  | insertVma vma within call => exact h.insertVma within call
  | unmapInner range call => exact h.unmapInner call
  | protectRange range prot call => exact h.protectRange call
  | remapRange object mapping call => exact h.remapRange call
  | setBrkInner mem brk call => exact h.setBrkInner call
  | @forkParent s' mem tables r mem' call =>
    cases r with
    | ok child => exact (h.forkInner call).1
    | error e =>
      rw [(UserSpace.forkInner_error call).1]
      exact h
  | forkChild mem tables call => exact (h.forkInner call).2

/-- **The registry along every run.**  From a new address space on, whatever is called and
whether it succeeds or is refused, the areas are keyed by their starts, not empty, disjoint
and below the top; the stack, the heap and the two guards are there with their ranges; and
every area whose chain of objects ends in an anonymous object views pages of that object
only, so that no discard of any range reaches an assertion.

SOURCE: mm/uspace/mmap.rs:157-534, mm/uspace/mmap.rs:844-1051, mm/uspace/mod.rs:318-405, vmo/anon.rs:88-98 -/
theorem reaches_registered (L : Layout) {stackObject heapObject : ℕ} {s₀ s : UserSpace}
    (hnew : UserSpace.new L stackObject heapObject = .ok s₀)
    (hrun : Run.Reaches (UserSpace.Step L) s₀ s) :
    Registered L s ∧
      ∀ (mem : Memory) (range : VirtPageRange), ∃ r, s.discardRangeInner L mem range = .ok r := by
  have hreg : Registered L s :=
    hrun.invariant (P := Registered L) (fun s t hs hst => hs.step hst) (registered_of_new hnew)
  exact ⟨hreg, hreg.discardRangeInner⟩

/-- Eight pages mapped in the middle of the default layout, and a hole punched into them. -/
theorem reaches_registered_sample : ∃ s₀ s : UserSpace,
    UserSpace.new .sv39 0 1 = .ok s₀ ∧ Run.Reaches (UserSpace.Step .sv39) s₀ s ∧
      s.vmas.size = 6 ∧ Registered .sv39 s ∧ ∀ (mem : Memory) (range : VirtPageRange),
        ∃ r, s.discardRangeInner .sv39 mem range = .ok r := by
  have hrun : (do
      let s₀ ← UserSpace.new .sv39 0 1
      let r ← s₀.mapAnonymous .sv39 2 ⟨some (3000000, true), false, 8, .rw, false, .empty⟩
      let r' ← r.2.unmapInner .sv39 ⟨3000002, 3⟩
      pure r'.2.vmas.size : Checked ℕ) = .ok 6 := by decide +kernel
  simp only [bind_eq_ok] at hrun
  obtain ⟨s₀, hnew, ⟨_, s₁⟩, hmap, ⟨_, s₂⟩, hunmap, hsize⟩ := hrun
  have hreaches : Run.Reaches (UserSpace.Step .sv39) s₀ s₂ :=
    .tail (.single (.mapAnonymous _ _ hmap)) (.unmapInner _ hunmap)
  exact ⟨s₀, s₂, hnew, hreaches, Except.ok.inj hsize, reaches_registered .sv39 hnew hreaches⟩

end Anemone.Uspace
