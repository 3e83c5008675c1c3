import Anemone.Analysis.FrameChains
import Anemone.Interface.FlatMemory

/-!
# What a chain of objects shows, and what calls do to it

Each object of a chain is a layer: it shows a page, zeros, or nothing and lets the next one
through.  A call on one chain is seen by another one only if the top of the first is part of the
second (`view_congr`).
-/

namespace Anemone.Uspace

open Checked (ok_bind pure_eq assert_of wordSize)
open Memory VmObject List

open Splice (splice unpage)

variable {b : VmObject} {pidx object : ℕ}

namespace VmObject

/-- An anonymous object under any number of shadows. -/
def Anonymous : VmObject → Prop
  | .anon _ _ => True
  | .shadow _ parent => parent.Anonymous
  | .empty => False
  | .external _ => False

theorem view_congr {layer layer' : ℕ → ℕ → Option Page}
    (h : ∀ object ∈ b.ids, layer' object = layer object) : b.view layer' = b.view layer := by
  induction b with
  | anon object maxPages =>
    funext pidx
    simp only [view, h object mem_cons_self]
  | shadow object parent ih =>
    have hparent := ih fun o ho => h o (mem_cons_of_mem _ ho)
    funext pidx
    simp only [view, h object mem_cons_self, hparent]
  | empty | external => rfl

theorem view_top {layer layer' : ℕ → ℕ → Option Page} (hnodup : b.ids.Nodup)
    (htop : b.top = some object) (hrest : ∀ o, o ≠ object → layer' o = layer o) :
    (layer' object pidx = layer object pidx → b.view layer' pidx = b.view layer pidx) ∧
      ∀ page, layer' object pidx = some page → (b.view layer pidx).isSome →
        b.view layer' pidx = some page := by
  cases b with
  | anon o maxPages =>
    cases htop
    simp only [view]
    refine ⟨fun heq => by rw [heq], ?_⟩
    intro page hpage hsome
    rw [hpage]
    by_cases hlt : pidx < maxPages
    · rw [if_pos hlt]
      rfl
    · rw [if_neg hlt] at hsome
      cases hsome
  | shadow o parent =>
    cases htop
    have hparent : parent.view layer' = parent.view layer := by
      apply view_congr
      intro o' ho'
      apply hrest
      rintro rfl
      exact (nodup_cons.mp hnodup).1 ho'
    simp only [view, hparent]
    refine ⟨fun heq => by rw [heq], ?_⟩
    intro page hpage _
    rw [hpage]
    rfl
  | empty | external => cases htop

end VmObject

variable {m : Memory} {page : Page} {offset : ℕ}

namespace Memory

/-- The memory of the objects is in order and the zero frame holds zeros. -/
structure Consistent (m : Memory) : Prop where
  sound : m.Sound
  committed : ∀ object pidx frame : ℕ, (m.objects object).resident[pidx]? = some frame →
    (m.objects object).decommitted pidx = false
  zero : m.bytes m.zeroFrame = zeroPage

theorem Consistent.lookup (hm : m.Consistent) (object pidx : ℕ) :
    (∃ frame, m.lookup object pidx = .ok (.resident frame) ∧
        (m.objects object).resident[pidx]? = some frame ∧
        m.layer object pidx = some (m.bytes frame)) ∨
      ((m.objects object).resident[pidx]? = none ∧
        (m.lookup object pidx = .ok .decommitted ∧ m.layer object pidx = some zeroPage ∨
          m.lookup object pidx = .ok .parent ∧ m.layer object pidx = none)) := by
  unfold Memory.lookup layer
  simp only
  cases hres : (m.objects object).resident[pidx]? with
  | some frame =>
    refine .inl ⟨frame, ?_, rfl, rfl⟩
    exact Checked.bind_eq_ok.mpr ⟨(), assert_of _ (hm.committed object pidx frame hres), rfl⟩
  | none =>
    refine .inr ⟨rfl, ?_⟩
    cases (m.objects object).decommitted pidx with
    | true => exact .inl ⟨rfl, rfl⟩
    | false => exact .inr ⟨rfl, rfl⟩

/-- A call on a chain that leaves all objects alone but the one on top. -/
structure Touches (b : VmObject) (m m' : Memory) : Prop where
  consistent : m'.Consistent
  objects : ∀ object, b.top ≠ some object → m'.objects object = m.objects object
  layers : ∀ object, b.top ≠ some object → m'.layer object = m.layer object
  nextObject : m'.nextObject = m.nextObject

theorem Touches.refl (b : VmObject) (hm : m.Consistent) : Touches b m m :=
  ⟨hm, fun _ _ => rfl, fun _ _ => rfl, rfl⟩

theorem Touches.trans {m m' m'' : Memory} (h : Touches b m m')
    (h' : Touches b m' m'') : Touches b m m'' where
  consistent := h'.consistent
  objects object ho := (h'.objects object ho).trans (h.objects object ho)
  layers object ho := (h'.layers object ho).trans (h.layers object ho)
  nextObject := h'.nextObject.trans h.nextObject

theorem Touches.view_eq {b c : VmObject} {m m' : Memory} (h : Touches b m m')
    (hapart : ∀ object, b.top = some object → object ∉ c.ids) :
    c.view m'.layer = c.view m.layer := by
  apply view_congr
  intro object hmem
  apply h.layers
  intro htop
  exact hapart object htop hmem

variable {frame : ℕ}

/-- **Storing into the frame of a page changes this page only.** -/
theorem layer_fill (hm : m.Consistent) (page : Page)
    (hheld : (m.objects object).resident[pidx]? = some frame) (o p : ℕ) :
    (m.fill frame page).layer o p =
      if o = object ∧ p = pidx then some page else m.layer o p := by
  unfold layer fill
  cases hres : (m.objects o).resident[p]? with
  | some f =>
    by_cases hf : f = frame
    · subst hf
      have hsame := hm.sound.unique o p object pidx f hres hheld
      rw [if_pos hsame]
      simp only [if_true]
    · have hother : ¬ (o = object ∧ p = pidx) := by
        rintro ⟨rfl, rfl⟩
        rw [hres] at hheld
        exact hf (Option.some.inj hheld)
      rw [if_neg hother]
      simp only [if_neg hf]
  | none =>
    have hother : ¬ (o = object ∧ p = pidx) := by
      rintro ⟨rfl, rfl⟩
      rw [hres] at hheld
      cases hheld
    rw [if_neg hother]

theorem Consistent.fill (hm : m.Consistent) (page : Page)
    (hheld : (m.objects object).resident[pidx]? = some frame) :
    (m.fill frame page).Consistent where
  sound := ⟨hm.sound.zero, hm.sound.unique, hm.sound.free, hm.sound.nodup⟩
  committed := hm.committed
  zero := by
    have hzero : m.zeroFrame ≠ frame := by
      rintro rfl
      exact hm.sound.zero object pidx hheld
    change (if m.zeroFrame = frame then page else m.bytes m.zeroFrame) = zeroPage
    rw [if_neg hzero]
    exact hm.zero

theorem fill_spec (hm : m.Consistent) (hnodup : b.ids.Nodup) (page : Page)
    (hheld : b.Holds m pidx frame) (hsome : (b.view m.layer pidx).isSome) :
    Touches b m (m.fill frame page) ∧ b.view (m.fill frame page).layer pidx = some page ∧
      ∀ p, p ≠ pidx → b.view (m.fill frame page).layer p = b.view m.layer p := by
  obtain ⟨object, htop, hres⟩ := hheld.top
  have hlayer := layer_fill hm page hres
  have hrest : ∀ o, o ≠ object → (m.fill frame page).layer o = m.layer o := by
    intro o ho
    funext p
    rw [hlayer, if_neg fun h => ho h.1]
  refine ⟨⟨hm.fill page hres, fun _ _ => rfl, ?_, rfl⟩, ?_, ?_⟩
  · intro o ho
    apply hrest
    rintro rfl
    exact ho htop
  · apply (view_top hnodup htop hrest).2 page _ hsome
    rw [hlayer, if_pos ⟨rfl, rfl⟩]
  · intro p hp
    apply (view_top hnodup htop hrest).1
    rw [hlayer, if_neg fun h => hp h.2]

/-- **A new page of the top object that holds what the chain shows.**  No chain
shows a difference. -/
theorem allocInto_shown (hm : m.Consistent) (hnodup : b.ids.Nodup) (htop : b.top = some object)
    (habsent : (m.objects object).resident[pidx]? = none)
    (hpage : b.view m.layer pidx = some page) {rest : List ℕ}
    (hfree : m.freeFrames = frame :: rest) :
    ∃ m', m.allocInto object pidx page = (.ok ⟨frame, true⟩, m') ∧ Touches b m m' ∧
      b.view m'.layer = b.view m.layer ∧ (m'.objects object).resident[pidx]? = some frame ∧
      (m'.objects object).decommitted pidx = false ∧ m'.bytes frame = page ∧
      m'.freeFrames = rest := by
  obtain ⟨m', hcall⟩ : ∃ m', m.allocInto object pidx page = (.ok ⟨frame, true⟩, m') := by
    unfold allocInto
    rw [hfree]
    exact ⟨_, rfl⟩
  obtain ⟨hsound, -, hheld⟩ := allocInto_spec hm.sound habsent hcall
  obtain ⟨hres, hdec⟩ := hheld _ rfl
  have hvalue : m' = { m with freeFrames := rest }.install object pidx frame page := by
    unfold allocInto at hcall
    rw [hfree] at hcall
    exact (Prod.mk.inj hcall).2.symm
  have hunused := hm.sound.free frame (by rw [hfree]; exact mem_cons_self)
  have hlayer : ∀ o p, m'.layer o p =
      if o = object ∧ p = pidx then some page else m.layer o p := by
    intro o p
    rw [hvalue]
    unfold layer
    simp only [get_install, decommitted_install]
    by_cases hsame : o = object ∧ p = pidx
    · rw [if_pos hsame, if_pos hsame]
      simp [install, fill]
    · rw [if_neg hsame, if_neg hsame]
      cases hget : (m.objects o).resident[p]? with
      | some f =>
        have hf : f ≠ frame := by
          rintro rfl
          exact hunused.2 o p hget
        simp only [install, fill, if_neg hf]
        rfl
      | none => simp [hsame]
  have hrest : ∀ o, o ≠ object → m'.layer o = m.layer o := by
    intro o ho
    funext p
    rw [hlayer, if_neg fun h => ho h.1]
  refine ⟨m', hcall, ⟨⟨hsound, ?_, ?_⟩, ?_, ?_, ?_⟩, ?_, hres, hdec, ?_, ?_⟩
  · intro o p f hget
    rw [hvalue] at hget ⊢
    rw [decommitted_install]
    by_cases hsame : o = object ∧ p = pidx
    · simp [hsame]
    · rw [get_install, if_neg hsame] at hget
      have hcommitted := hm.committed o p f hget
      simp [hcommitted]
  · rw [hvalue]
    change (if m.zeroFrame = frame then page else m.bytes m.zeroFrame) = zeroPage
    rw [if_neg (Ne.symm hunused.1)]
    exact hm.zero
  · intro o ho
    rw [hvalue]
    apply if_neg
    rintro rfl
    exact ho htop
  · intro o ho
    apply hrest
    rintro rfl
    exact ho htop
  · rw [hvalue]
    rfl
  · funext p
    by_cases hp : p = pidx
    · subst hp
      rw [hpage]
      apply (view_top hnodup htop hrest).2 page
      · rw [hlayer, if_pos ⟨rfl, rfl⟩]
      · rw [hpage]
        rfl
    · apply (view_top hnodup htop hrest).1
      rw [hlayer, if_neg fun h => hp h.2]
  · rw [hvalue]
    exact if_pos rfl
  · rw [hvalue]
    rfl

end Memory

namespace VmObject

open Memory (Touches)

/-- **Reading resolves to the page that the chain shows.** -/
theorem resolveFrame_read (hb : b.Anonymous) (hm : m.Consistent) (pidx : ℕ)
    {access : PageFaultType} (haccess : access ≠ .write) :
    (∃ resolved, b.resolveFrame m pidx access = .ok (.ok resolved, m) ∧
        b.view m.layer pidx = some (m.bytes resolved.frame)) ∨
      b.resolveFrame m pidx access = .ok (.error .invalidArgument, m) ∧
        b.view m.layer pidx = none := by
  induction b with
  | anon object maxPages =>
    simp only [resolveFrame, view]
    by_cases hge : pidx ≥ maxPages
    · refine .inr ⟨if_pos hge, if_neg (by omega)⟩
    · rw [if_neg hge, if_pos (by omega : pidx < maxPages)]
      rcases hm.lookup object pidx with ⟨frame, -, hres, hlayer⟩ | ⟨hres, hcase⟩
      · rw [hres, hlayer]
        exact .inl ⟨⟨frame, true⟩, rfl, rfl⟩
      · rw [hres]
        refine .inl ⟨m.sharedZeroFrame, ?_, ?_⟩
        · cases access with
          | read | execute => rfl
          | write => exact absurd rfl haccess
        · change _ = some (m.bytes m.zeroFrame)
          rw [hm.zero]
          rcases hcase with ⟨-, hlayer⟩ | ⟨-, hlayer⟩
          all_goals
            rw [hlayer]
            rfl
  | shadow object parent ih =>
    simp only [resolveFrame, view]
    rcases hm.lookup object pidx with
      ⟨frame, hfound, hres, hlayer⟩ | ⟨hres, ⟨hfound, hlayer⟩ | ⟨hfound, hlayer⟩⟩
    · rw [hfound, hlayer]
      exact .inl ⟨⟨frame, true⟩, rfl, rfl⟩
    · rw [hfound, hlayer]
      refine .inl ⟨m.sharedZeroFrame, ?_, ?_⟩
      · cases access with
        | read | execute => rfl
        | write => exact absurd rfl haccess
      · exact congrArg some hm.zero.symm
    · rw [hfound, hlayer, Option.none_or]
      have hcall : ∀ {r : Except SysError ResolvedFrame},
          parent.resolveFrame m pidx access = .ok (r, m) →
          (shadow object parent).resolveFrame m pidx access =
            .ok (r.map fun r => ⟨r.frame, false⟩, m) := by
        intro r hr
        simp only [resolveFrame, hfound, ok_bind]
        cases access with
        | write => exact absurd rfl haccess
        | read | execute =>
          simp only [hr, ok_bind, pure_eq]
      simp only [resolveFrame, hfound] at hcall
      rcases ih hb with ⟨resolved, hparent, hview⟩ | ⟨hparent, hview⟩
      · exact .inl ⟨⟨resolved.frame, false⟩, hcall hparent, hview⟩
      · exact .inr ⟨hcall hparent, hview⟩
  | empty | external => exact hb.elim

/-- How a write fault on a chain ends: with a frame of the top object, or refused. -/
def WriteFault (b : VmObject) (m : Memory) (pidx : ℕ) : Prop :=
  (∃ frame m', b.resolveFrame m pidx .write = .ok (.ok ⟨frame, true⟩, m') ∧
      Touches b m m' ∧ b.view m'.layer = b.view m.layer ∧ b.Holds m' pidx frame ∧
      b.view m.layer pidx = some (m'.bytes frame) ∧
      m.freeFrames.length ≤ m'.freeFrames.length + 1) ∨
    ∃ e, b.resolveFrame m pidx .write = .ok (.error e, m) ∧
      (e = .outOfMemory ∧ m.freeFrames = [] ∨ e = .invalidArgument ∧ b.view m.layer pidx = none)

theorem writeFault_of_alloc (hnodup : b.ids.Nodup) (hm : m.Consistent) (htop : b.top = some object)
    (habsent : (m.objects object).resident[pidx]? = none)
    (hpage : b.view m.layer pidx = some page)
    (hcall : b.resolveFrame m pidx .write = .ok (m.allocInto object pidx page))
    (hholds : ∀ (mem : Memory) (frame : ℕ), (mem.objects object).resident[pidx]? = some frame →
      (mem.objects object).decommitted pidx = false → b.Holds mem pidx frame) :
    b.WriteFault m pidx := by
  cases hfree : m.freeFrames with
  | nil =>
    refine .inr ⟨.outOfMemory, ?_, .inl ⟨rfl, hfree⟩⟩
    rw [hcall]
    unfold allocInto
    rw [hfree]
  | cons frame rest =>
    obtain ⟨m', halloc, htouch, hview, hres, hdec, hbytes, hrest⟩ :=
      allocInto_shown hm hnodup htop habsent hpage hfree
    refine .inl ⟨frame, m', ?_, htouch, hview, hholds _ _ hres hdec, ?_, ?_⟩
    · rw [hcall, halloc]
    · rw [hpage, hbytes]
    · rw [hfree, hrest, length_cons]

/-- **A write fault gives a frame of the top object and changes nothing that is
shown.** -/
theorem writeFault (hb : b.Anonymous) (hnodup : b.ids.Nodup) (hm : m.Consistent)
    (pidx : ℕ) : b.WriteFault m pidx := by
  cases b with
  | anon object maxPages =>
    by_cases hge : pidx ≥ maxPages
    · refine .inr ⟨.invalidArgument, ?_, .inr ⟨rfl, ?_⟩⟩
      · simp only [resolveFrame, if_pos hge, pure_eq]
      · simp only [view, if_neg (by omega : ¬ pidx < maxPages)]
    · have hlt : pidx < maxPages := by omega
      rcases hm.lookup object pidx with ⟨frame, -, hres, hlayer⟩ | ⟨hres, hcase⟩
      · refine .inl ⟨frame, m, ?_, .refl _ hm, rfl, ⟨hlt, hres⟩, ?_, by omega⟩
        · simp only [resolveFrame, if_neg hge, hres, pure_eq]
        · simp only [view, if_pos hlt, hlayer, Option.getD_some]
      · have hview : (anon object maxPages).view m.layer pidx = some zeroPage := by
          simp only [view, if_pos hlt]
          rcases hcase with ⟨-, hlayer⟩ | ⟨-, hlayer⟩
          all_goals
            rw [hlayer]
            rfl
        apply writeFault_of_alloc hnodup hm rfl hres hview
        · simp only [resolveFrame, if_neg hge, hres, pure_eq]
        · intro mem frame hget _
          exact ⟨hlt, hget⟩
  | shadow object parent =>
    have hholds : ∀ (mem : Memory) (frame : ℕ), (mem.objects object).resident[pidx]? = some frame →
        (mem.objects object).decommitted pidx = false →
          (shadow object parent).Holds mem pidx frame :=
      fun mem frame hget hdec => ⟨hget, hdec⟩
    rcases hm.lookup object pidx with
      ⟨frame, hfound, hres, hlayer⟩ | ⟨hres, ⟨hfound, hlayer⟩ | ⟨hfound, hlayer⟩⟩
    · refine .inl ⟨frame, m, ?_, .refl _ hm, rfl, ⟨hres, hm.committed _ _ _ hres⟩, ?_, by omega⟩
      · simp only [resolveFrame, hfound, ok_bind, pure_eq]
      · simp only [view, hlayer, Option.some_or]
    · have hview : (shadow object parent).view m.layer pidx = some zeroPage := by
        simp only [view, hlayer, Option.some_or]
      apply writeFault_of_alloc hnodup hm rfl hres hview _ hholds
      simp only [resolveFrame, hfound, ok_bind, pure_eq]
    · have hread : PageFaultType.read ≠ .write := by simp
      have hview : (shadow object parent).view m.layer pidx =
          parent.view m.layer pidx := by
        simp only [view, hlayer, Option.none_or]
      rcases resolveFrame_read (b := parent) hb hm pidx hread with
        ⟨resolved, hparent, hshown⟩ | ⟨hparent, hshown⟩
      · apply writeFault_of_alloc hnodup hm rfl hres (hview.trans hshown) _ hholds
        simp only [resolveFrame, hfound, ok_bind, hparent, pure_eq]
      · refine .inr ⟨.invalidArgument, ?_, .inr ⟨rfl, hview.trans hshown⟩⟩
        simp only [resolveFrame, hfound, ok_bind, hparent, pure_eq]
  | empty | external => exact hb.elim

theorem flat_of_view {i : ℕ} (hview : b.view m.layer (offset / pageSize) = some page)
    (hi : offset % pageSize + i < pageSize) :
    b.flat m (offset + i) = some (page (offset % pageSize + i)) := by
  have hdiv : (offset + i) / pageSize = offset / pageSize := by
    unfold pageSize at hi ⊢
    omega
  have hmod : (offset + i) % pageSize = offset % pageSize + i := by
    unfold pageSize at hi ⊢
    omega
  unfold flat unpage
  rw [hdiv, hmod, hview]
  rfl

theorem present_chunk {len : ℕ} (hview : b.view m.layer (offset / pageSize) = some page)
    (hfit : offset % pageSize + len ≤ pageSize) (hword : offset + len < wordSize) :
    (b.flat m).Present offset len := by
  intro i hi
  rw [flat_of_view hview (by omega)]
  exact ⟨rfl, by omega⟩

end VmObject

namespace Flat

variable {offset len c : ℕ} {g : Flat}

theorem Present.mono (h : g.Present offset len) (hle : c ≤ len) :
    g.Present offset c := fun i hi => h i (hi.trans_le hle)

theorem present_split (hle : c ≤ len) :
    g.Present offset len ↔ g.Present offset c ∧ g.Present (offset + c) (len - c) := by
  constructor
  · intro h
    refine ⟨h.mono hle, ?_⟩
    intro i hi
    have hat := h (c + i) (by omega)
    rw [← Nat.add_assoc] at hat
    exact hat
  · rintro ⟨hfirst, hrest⟩ i hi
    by_cases hc : i < c
    · exact hfirst i hc
    · have hat := hrest (i - c) (by omega)
      have hidx : offset + c + (i - c) = offset + i := by omega
      rw [hidx] at hat
      exact hat

theorem not_present_of_none {len : ℕ} (hpos : 0 < len) (hnone : g offset = none) :
    ¬ g.Present offset len := by
  intro h
  have hat := (h 0 hpos).1
  rw [Nat.add_zero, hnone] at hat
  cases hat

theorem not_present_of_word (hpos : 0 < c) (hle : c ≤ len)
    (hword : ¬ offset + c < wordSize) : ¬ g.Present offset len := by
  intro h
  have hat := (h (c - 1) (by omega)).2
  omega

theorem read_split (hle : c ≤ len) (hfirst : g.Present offset c) :
    g.read offset len = (g.read (offset + c) (len - c)).map
      (((range c).map fun i => (g (offset + i)).getD 0) ++ ·) := by
  unfold read
  by_cases hrest : g.Present (offset + c) (len - c)
  · rw [if_pos ((present_split hle).mpr ⟨hfirst, hrest⟩), if_pos hrest]
    have hlen : len = c + (len - c) := by omega
    conv_lhs => rw [hlen, range_add, map_append, map_map]
    simp only [Except.map, Function.comp_def, Nat.add_assoc]
  · rw [if_neg (fun h => hrest ((present_split hle).mp h).2), if_neg hrest]
    rfl

theorem write_nil (g : Flat) (offset : ℕ) : g.write offset [] = g := Splice.splice_nil g offset

theorem write_of_ge {i : ℕ} {data : List UInt8} (h : offset + data.length ≤ i) :
    g.write offset data i = g i := by
  have hnone : (data.map some)[i - offset]? = none := by
    apply getElem?_eq_none
    rw [length_map]
    omega
  unfold write splice
  rw [if_pos (by omega), hnone]
  rfl

theorem present_write (g : Flat) (offset len : ℕ) (data : List UInt8) :
    (g.write offset data).Present (offset + data.length) len ↔
      g.Present (offset + data.length) len := by
  apply forall_congr'
  intro i
  rw [write_of_ge (by omega)]

theorem write_append (g : Flat) (offset : ℕ) (first rest : List UInt8) :
    (g.write offset first).write (offset + first.length) rest =
      g.write offset (first ++ rest) := by
  unfold write
  rw [map_append, Splice.splice_append, length_map]

end Flat

namespace VmObject

open Memory (Touches)

/-- **Reading returns what the chain shows**, byte by byte.

The induction is on the rounds: the first one reads up to the end of its page. -/
theorem readLoop_eq (hb : b.Anonymous) (hm : m.Consistent) (rounds offset len : ℕ)
    (hrounds : len ≤ rounds) :
    b.readLoop rounds m offset len = .ok ((b.flat m).read offset len, m) := by
  induction rounds generalizing offset len with
  | zero =>
    obtain rfl : len = 0 := by omega
    rfl
  | succ rounds ih =>
    by_cases hlen : len = 0
    · subst hlen
      rfl
    · have hmod : offset % pageSize < pageSize := Nat.mod_lt _ (by decide)
      obtain ⟨c, hc⟩ : ∃ c, c = min len (pageSize - offset % pageSize) := ⟨_, rfl⟩
      have hread : PageFaultType.read ≠ .write := by simp
      simp only [readLoop, if_neg hlen, ← hc]
      rcases resolveFrame_read hb hm (offset / pageSize) hread with
        ⟨resolved, hcall, hview⟩ | ⟨hcall, hview⟩
      · simp only [hcall, ok_bind]
        by_cases hword : offset + c < wordSize
        · have hfirst := present_chunk hview (by omega : offset % pageSize + c ≤ pageSize) hword
          have hbytes : pageBytes (m.bytes resolved.frame) (offset % pageSize) c =
              (range c).map fun i => (b.flat m (offset + i)).getD 0 := by
            apply map_congr_left
            intro i hi
            rw [flat_of_view hview (by rw [mem_range] at hi; omega)]
            rfl
          rw [if_pos hword, ih _ _ (by omega), Flat.read_split (by omega) hfirst, hbytes]
          rfl
        · have habsent := Flat.not_present_of_word (g := b.flat m) (by omega) (by omega : c ≤ len)
            hword
          unfold Flat.read
          rw [if_neg hword, if_neg habsent]
          rfl
      · have hnone : b.flat m offset = none := by
          unfold flat unpage
          rw [hview]
          rfl
        have habsent := Flat.not_present_of_none (by omega : 0 < len) hnone
        unfold Flat.read
        rw [hcall, if_neg habsent]
        rfl

/-- How a write on a chain ends: with all its data stored, or refused after a part of it. -/
def Written (b : VmObject) (m m' : Memory) (offset : ℕ) (data : List UInt8)
    (result : Except SysError Unit) : Prop :=
  (result = .ok () ∧ b.flat m' = (b.flat m).write offset data) ∨
    ∃ e stored, result = .error e ∧ b.flat m' = (b.flat m).write offset (data.take stored) ∧
      (e = .outOfMemory ∨ e = .invalidArgument ∧ ¬ (b.flat m).Present offset data.length) ∧
      ¬ ((b.flat m).Present offset data.length ∧
        pageUp (offset % pageSize + data.length) ≤ m.freeFrames.length)

theorem writeLoop_nil (b : VmObject) (rounds : ℕ) (m : Memory) (offset : ℕ) :
    b.writeLoop rounds m offset [] = .ok (.ok (), m) := by
  cases rounds with
  | zero | succ => rfl

/-- **Writing stores the data into the chain it is called on**, or a first part of it
if it is refused, and it is not refused if the bytes are there and so are enough frames.

The induction is on the rounds: the first one writes up to the end of its page. -/
theorem writeLoop_spec (hb : b.Anonymous) (hnodup : b.ids.Nodup) (rounds : ℕ) (hm : m.Consistent)
    (offset : ℕ) (data : List UInt8) (hrounds : data.length ≤ rounds) :
    ∃ result m', b.writeLoop rounds m offset data = .ok (result, m') ∧ Touches b m m' ∧
      b.Written m m' offset data result := by
  induction rounds generalizing m offset data with
  | zero =>
    obtain rfl : data = [] := length_eq_zero_iff.mp (by omega)
    exact ⟨_, m, rfl, .refl b hm, .inl ⟨rfl, (Flat.write_nil _ _).symm⟩⟩
  | succ rounds ih =>
    by_cases hdata : data = []
    · subst hdata
      exact ⟨_, m, rfl, .refl b hm, .inl ⟨rfl, (Flat.write_nil _ _).symm⟩⟩
    · have hpos : 0 < data.length := length_pos_iff.mpr hdata
      have hmod : offset % pageSize < pageSize := Nat.mod_lt _ (by decide)
      obtain ⟨c, hc⟩ : ∃ c, c = min data.length (pageSize - offset % pageSize) := ⟨_, rfl⟩
      have htake : (data.take c).length = c := by
        rw [length_take]
        omega
      simp only [writeLoop, if_neg hdata, ← hc]
      rcases writeFault hb hnodup hm (offset / pageSize) with
        ⟨frame, m₁, hcall, htouch₁, hsame, hheld, hview, hframes⟩ | ⟨e, hcall, hcause⟩
      · simp only [hcall, ok_bind, if_true]
        obtain ⟨m₂, hm₂⟩ : ∃ m₂, m₂ = m₁.fill frame
          (splice (m₁.bytes frame) (offset % pageSize) (data.take c)) := ⟨_, rfl⟩
        rw [← hm₂]
        have hview₁ : b.view m₁.layer (offset / pageSize) = some (m₁.bytes frame) := by
          rw [hsame]
          exact hview
        obtain ⟨htouch₂, hnew, hold⟩ := fill_spec htouch₁.consistent hnodup
          (splice (m₁.bytes frame) (offset % pageSize) (data.take c)) hheld
          (by rw [hview₁]; rfl)
        rw [← hm₂] at htouch₂ hnew hold
        have hflat : b.flat m₂ = (b.flat m).write offset (data.take c) := by
          have hsplice := Splice.unpage_splice pageSize (by omega) hview₁ hnew hold
          rw [Nat.div_add_mod' offset pageSize, hsame] at hsplice
          exact hsplice
        have htouch : Touches b m m₂ := htouch₁.trans htouch₂
        by_cases hword : offset + c < wordSize
        · rw [if_pos hword]
          by_cases hall : c = data.length
          · -- the data ends in this page
            have hnil : data.drop c = [] := drop_eq_nil_of_le (by omega)
            rw [hnil, writeLoop_nil]
            refine ⟨_, m₂, rfl, htouch, .inl ⟨rfl, ?_⟩⟩
            rw [hflat, take_of_length_le (by omega)]
          · obtain ⟨result, m₃, hrest, htouch₃, hwritten⟩ :=
              ih htouch.consistent (offset + c) (data.drop c) (by rw [length_drop]; omega)
            refine ⟨result, m₃, hrest, htouch.trans htouch₃, ?_⟩
            have hglue : ∀ rest, (b.flat m₂).write (offset + c) rest =
                (b.flat m).write offset (data.take c ++ rest) := by
              intro rest
              have happend := (b.flat m).write_append offset (data.take c) rest
              rw [htake] at happend
              rw [hflat, happend]
            have hpresent : (b.flat m).Present offset data.length →
                (b.flat m₂).Present (offset + c) (data.drop c).length := by
              intro h
              have hlater := ((Flat.present_split (by omega : c ≤ data.length)).mp h).2
              have hwrite := (b.flat m).present_write offset (data.length - c) (data.take c)
              rw [htake, ← hflat] at hwrite
              rw [length_drop]
              exact hwrite.mpr hlater
            rcases hwritten with ⟨rfl, hflat₃⟩ | ⟨e, stored, rfl, hflat₃, hcause, hlack⟩
            · refine .inl ⟨rfl, ?_⟩
              rw [hflat₃, hglue, take_append_drop]
            · refine .inr ⟨e, c + stored, rfl, ?_, ?_, ?_⟩
              · rw [hflat₃, hglue, take_add]
              · exact hcause.imp_right fun h => ⟨h.1, fun hp => h.2 (hpresent hp)⟩
              · rintro ⟨hp, hpages⟩
                apply hlack
                refine ⟨hpresent hp, ?_⟩
                have hfree : m₂.freeFrames = m₁.freeFrames := by
                  rw [hm₂]
                  rfl
                rw [hfree, length_drop]
                unfold pageUp pageSize at *
                omega
        · rw [if_neg hword]
          have habsent := Flat.not_present_of_word (g := b.flat m) (by omega)
            (by omega : c ≤ data.length) hword
          exact ⟨_, m₂, rfl, htouch, .inr ⟨_, c, rfl, hflat, .inr ⟨rfl, habsent⟩,
            fun h => habsent h.1⟩⟩
      · simp only [hcall, ok_bind]
        refine ⟨_, m, rfl, .refl b hm, .inr ⟨e, 0, rfl, ?_, ?_⟩⟩
        · rw [take_zero, Flat.write_nil]
        · rcases hcause with ⟨rfl, hfree⟩ | ⟨rfl, hview⟩
          · refine ⟨.inl rfl, ?_⟩
            rintro ⟨-, hpages⟩
            rw [hfree, length_nil] at hpages
            unfold pageUp pageSize at *
            omega
          · have hnone : b.flat m offset = none := by
              unfold flat unpage
              rw [hview]
              rfl
            have habsent := Flat.not_present_of_none hpos hnone
            exact ⟨.inr ⟨rfl, habsent⟩, fun h => habsent h.1⟩

variable {m' : Memory}

theorem decommitPrivateRange_objects {lo hi : ℕ}
    (h : b.decommitPrivateRange m lo hi = .ok m') (hother : b.top ≠ some object) :
    m'.objects object = m.objects object := by
  cases b with
  | anon o maxPages =>
    have hne : object ≠ o := fun heq => hother (congrArg some heq.symm)
    simp only [decommitPrivateRange] at h
    split at h
    · cases h
    · cases h
      exact if_neg hne
  | shadow o parent =>
    have hne : object ≠ o := fun heq => hother (congrArg some heq.symm)
    simp only [decommitPrivateRange] at h
    split_ifs at h
    · cases h
      rfl
    · cases h
      exact (if_neg hne).trans (if_neg hne)
  | empty | external => cases h

theorem view_decommitted {lo hi : ℕ} (h : b.decommitPrivateRange m lo hi = .ok m')
    (hlo : lo ≤ pidx) (hhi : pidx < hi) :
    b.view m'.layer pidx = some zeroPage := by
  have hlost := (Memory.retires_decommitPrivateRange h).lost
  cases b with
  | anon object maxPages =>
    have hres := hlost object pidx ⟨rfl, hlo, hhi⟩
    simp only [decommitPrivateRange] at h
    split at h
    · cases h
    · next hwithin =>
      simp only [view, layer, hres]
      rw [if_pos (by omega)]
      split_ifs <;> rfl
  | shadow object parent =>
    have hres := hlost object pidx ⟨rfl, hlo, hhi⟩
    have hdec : (m'.objects object).decommitted pidx = true := by
      simp only [decommitPrivateRange] at h
      split_ifs at h
      · omega
      · cases h
        simp [Memory.setPages, hlo, hhi]
    simp only [view, layer, hres, hdec, if_true, Option.some_or]
  | empty | external => cases h

/-- **Decommitting makes pages of the chain it is called on zero.** -/
theorem decommitPrivateRange_spec (hnodup : b.ids.Nodup) (hm : m.Consistent) {lo hi : ℕ}
    (h : b.decommitPrivateRange m lo hi = .ok m') :
    Touches b m m' ∧ b.flat m' = (b.flat m).decommit lo hi := by
  have hret := Memory.retires_decommitPrivateRange h
  have hlayers : ∀ object, b.top ≠ some object →
      m'.layer object = m.layer object := by
    intro object hother
    funext pidx
    unfold layer
    rw [decommitPrivateRange_objects h hother, hret.bytes]
  refine ⟨⟨⟨hret.sound hm.sound, ?_, ?_⟩, ?_, hlayers, hret.nextObject⟩, ?_⟩
  · intro object pidx frame hget
    by_cases hgone : Memory.TopPages b lo hi object pidx
    · rw [hret.lost object pidx hgone] at hget
      cases hget
    · obtain ⟨hres, hdec⟩ := hret.kept object pidx hgone
      rw [hres] at hget
      exact hdec.trans (hm.committed object pidx frame hget)
  · rw [hret.bytes, hret.zeroFrame]
    exact hm.zero
  · exact fun object hother => decommitPrivateRange_objects h hother
  · funext offset
    unfold Flat.decommit flat unpage
    by_cases hin : lo ≤ offset / pageSize ∧ offset / pageSize < hi
    · rw [if_pos hin, view_decommitted h hin.1 hin.2]
      rfl
    · rw [if_neg hin]
      cases htop : b.top with
      | none =>
        have hsame : m'.layer = m.layer :=
          funext fun object => hlayers object (by rw [htop]; simp)
        rw [hsame]
      | some object =>
        have hrest : ∀ o, o ≠ object → m'.layer o = m.layer o := by
          intro o ho
          apply hlayers
          rw [htop]
          exact fun heq => ho (Option.some.inj heq).symm
        have hkept := hret.kept object (offset / pageSize) fun hgone => hin hgone.2
        rw [(view_top hnodup htop hrest).1]
        unfold layer
        rw [hkept.1, hkept.2, hret.bytes]

/-- A chain refuses to decommit only what is not inside of it. -/
theorem decommitPrivateRange_refused (hb : b.Anonymous) {lo hi : ℕ} {e : SysError}
    (h : b.decommitPrivateRange m lo hi = .error e) :
    e = .invalidArgument ∧ ¬ (lo < hi ∧ ∀ offset, lo ≤ offset / pageSize → offset / pageSize < hi →
        (b.flat m offset).isSome) := by
  cases b with
  | anon object maxPages =>
    simp only [decommitPrivateRange] at h
    split at h
    · next hout =>
      cases h
      refine ⟨rfl, ?_⟩
      rintro ⟨hlt, hall⟩
      have hpage : (hi - 1) * pageSize / pageSize = hi - 1 := Nat.mul_div_cancel _ (by decide)
      have hlast := hall ((hi - 1) * pageSize) (by omega) (by omega)
      simp only [flat, unpage, view, hpage] at hlast
      split_ifs at hlast
      · omega
      · cases hlast
    · cases h
  | shadow object parent =>
    simp only [decommitPrivateRange] at h
    split_ifs at h with hgt
    cases h
    exact ⟨rfl, fun hall => by omega⟩
  | empty | external => exact hb.elim

end VmObject

end Anemone.Uspace
