import Mathlib.Data.Finset.Sort
import Mathlib.Tactic.Ring

/-!
# Computations that may panic, and invariants along runs

Program text that asserts, unwraps, indexes or computes with machine words is written in the monad
`Checked`: it returns or stops with a panic.  Machine words are natural numbers below `2 ^ 64`, and
the operations on them panic on overflow.  The last section is the induction that every whole-run
statement goes through.
-/

/-- What a panicking computation reports. -/
structure Panic where
  /-- The text of the failed assertion or unwrap. -/
  reason : String
deriving DecidableEq, Repr

/-- A computation that returns a value or panics. -/
abbrev Checked (α : Type) : Type := Except Panic α

namespace Checked

/-- An assertion: continue when `p` holds, panic otherwise. -/
def assert (p : Prop) [Decidable p] (reason : String) : Checked Unit :=
  if p then .ok () else .error ⟨reason⟩

/-- Unwrap an optional value, panicking on `none`. -/
def expect {α : Type} (x : Option α) (reason : String) : Checked α :=
  match x with
  | some a => .ok a
  | none => .error ⟨reason⟩

/-- Unwrap a fallible result, panicking on any error. -/
def unwrap {ε α : Type} (x : Except ε α) (reason : String) : Checked α :=
  match x with
  | .ok a => .ok a
  | .error _ => .error ⟨reason⟩

/-- The number of values of a machine word. -/
def wordSize : ℕ := 2 ^ 64

def add (a b : ℕ) : Checked ℕ :=
  if a + b < wordSize then .ok (a + b) else .error ⟨"attempt to add with overflow"⟩

def mul (a b : ℕ) : Checked ℕ :=
  if a * b < wordSize then .ok (a * b) else .error ⟨"attempt to multiply with overflow"⟩

def sub (a b : ℕ) : Checked ℕ :=
  if b ≤ a then .ok (a - b) else .error ⟨"attempt to subtract with overflow"⟩

/-- The word `1 << n`: shifting by the width of a word or more is an overflow. -/
def shl (n : ℕ) : Checked ℕ :=
  if n < 64 then .ok (2 ^ n) else .error ⟨"attempt to shift left with overflow"⟩

section Lemmas

variable {α β ε : Type} {b : β}

/-- A sequence returns exactly when both halves do. -/
theorem bind_eq_ok {x : Checked α} {f : α → Checked β} :
    (x >>= f) = .ok b ↔ ∃ a, x = .ok a ∧ f a = .ok b := by
  rcases x with e | a
  · exact ⟨nofun, fun ⟨_, h, _⟩ => (nomatch h)⟩
  · exact ⟨fun h => ⟨a, rfl, h⟩, fun ⟨_, h, hf⟩ => by cases h; exact hf⟩

@[simp] theorem ok_bind (a : α) (f : α → Checked β) :
    ((.ok a : Checked α) >>= f) = f a := rfl

@[simp] theorem error_bind (e : Panic) (f : α → Checked β) :
    ((.error e : Checked α) >>= f) = .error e := rfl

@[simp] theorem pure_eq (a : α) : (pure a : Checked α) = .ok a := rfl

variable {reason : String} {f : β → α → Checked β} {as : List α} {a : α}

@[simp] theorem assert_eq_ok {p : Prop} [Decidable p] {u : Unit} :
    assert p reason = .ok u ↔ p := by
  unfold assert
  split <;> simp_all

theorem assert_of {p : Prop} [Decidable p] (reason : String) (h : p) :
    assert p reason = .ok () := assert_eq_ok.mpr h

@[simp] theorem expect_some (a : α) (reason : String) : expect (some a) reason = .ok a := rfl

@[simp] theorem expect_eq_ok {x : Option α} :
    expect x reason = .ok a ↔ x = some a := by
  cases x <;> simp [expect]

@[simp] theorem unwrap_ok (a : α) (reason : String) :
    unwrap (.ok a : Except ε α) reason = .ok a := rfl

@[simp] theorem unwrap_eq_ok {x : Except ε α} :
    unwrap x reason = .ok a ↔ x = .ok a := by
  cases x <;> simp [unwrap]

theorem add_eq_ok {a b c : ℕ} : add a b = .ok c ↔ a + b < wordSize ∧ a + b = c := by
  by_cases h : a + b < wordSize <;> simp [add, h]

theorem add_of_lt {a b : ℕ} (h : a + b < wordSize) : add a b = .ok (a + b) :=
  add_eq_ok.mpr ⟨h, rfl⟩

theorem mul_eq_ok {a b c : ℕ} : mul a b = .ok c ↔ a * b < wordSize ∧ a * b = c := by
  by_cases h : a * b < wordSize <;> simp [mul, h]

theorem mul_of_lt {a b : ℕ} (h : a * b < wordSize) : mul a b = .ok (a * b) :=
  mul_eq_ok.mpr ⟨h, rfl⟩

theorem sub_eq_ok {a b c : ℕ} : sub a b = .ok c ↔ b ≤ a ∧ a - b = c := by
  by_cases h : b ≤ a <;> simp [sub, h]

theorem sub_of_le {a b : ℕ} (h : b ≤ a) : sub a b = .ok (a - b) :=
  sub_eq_ok.mpr ⟨h, rfl⟩

theorem shl_eq_ok {n c : ℕ} : shl n = .ok c ↔ n < 64 ∧ 2 ^ n = c := by
  by_cases h : n < 64 <;> simp [shl, h]

theorem shl_of_lt {n : ℕ} (h : n < 64) : shl n = .ok (2 ^ n) :=
  shl_eq_ok.mpr ⟨h, rfl⟩

theorem foldlM_cons_eq_ok {c : β} :
    (a :: as).foldlM f b = .ok c ↔ ∃ b', f b a = .ok b' ∧ as.foldlM f b' = .ok c := by
  rw [List.foldlM_cons, bind_eq_ok]

/-- A loop that collects one result an element returns exactly if every round does. -/
theorem mapM_eq_ok {f : α → Checked β} {P : α → Prop} {g : α → β}
    (hf : ∀ a b, f a = .ok b ↔ P a ∧ b = g a) {bs : List β} :
    as.mapM f = .ok bs ↔ (∀ a ∈ as, P a) ∧ bs = as.map g := by
  induction as generalizing bs with
  | nil => simp [eq_comm]
  | cons a as ih =>
    simp only [List.mapM_cons, bind_eq_ok, hf, ih, pure_eq, Except.ok.injEq]
    constructor
    · rintro ⟨b, ⟨ha, rfl⟩, bs', ⟨has, rfl⟩, rfl⟩
      exact ⟨List.forall_mem_cons.mpr ⟨ha, has⟩, rfl⟩
    · rintro ⟨hall, rfl⟩
      obtain ⟨ha, has⟩ := List.forall_mem_cons.mp hall
      exact ⟨_, ⟨ha, rfl⟩, _, ⟨has, rfl⟩, rfl⟩

/-- A loop over a list returns if every round does from the states that the rounds lead to. -/
theorem foldlM_returns (I : β → Prop) (hstep : ∀ b a, a ∈ as → I b → ∃ b', f b a = .ok b' ∧ I b')
    (hb : I b) :
    ∃ c, as.foldlM f b = .ok c ∧ I c := by
  induction as generalizing b with
  | nil => exact ⟨b, rfl, hb⟩
  | cons a as ih =>
    obtain ⟨b', hf, hb'⟩ := hstep b a List.mem_cons_self hb
    obtain ⟨c, hrest, hc⟩ := ih (fun b a ha => hstep b a (List.mem_cons_of_mem _ ha)) hb'
    exact ⟨c, foldlM_cons_eq_ok.mpr ⟨b', hf, hrest⟩, hc⟩

end Lemmas

end Checked

namespace Run

/-- The states some finite sequence of steps leads to. -/
abbrev Reaches {σ : Type} (step : σ → σ → Prop) : σ → σ → Prop := Relation.ReflTransGen step

/-- What one step preserves holds in every state of every run. -/
theorem Reaches.invariant {σ : Type} {step : σ → σ → Prop} {P : σ → Prop}
    (hstep : ∀ s t, P s → step s t → P t) {s t : σ} (h : Reaches step s t) (hs : P s) :
    P t := by
  induction h with
  | refl => exact hs
  | tail _ hst ih => exact hstep _ _ ih hst

/-- A run written down: the label of each step and the state it leads to. -/
def Path {σ α : Type} (step : σ → α → σ → Prop) : σ → List (α × σ) → Prop
  | _, [] => True
  | s, (a, t) :: rest => step s a t ∧ Path step t rest

def last {σ α : Type} : σ → List (α × σ) → σ
  | s, [] => s
  | _, (_, t) :: rest => last t rest

variable {σ α : Type}

theorem last_append (s : σ) (before : List (α × σ)) (x : α × σ)
    (after : List (α × σ)) : last s (before ++ x :: after) = last x.2 after := by
  induction before generalizing s with
  | nil => rfl
  | cons y rest ih => exact ih y.2

variable {step : σ → α → σ → Prop} {path before after : List (α × σ)} {s : σ} {x : α × σ}

/-- What one step preserves holds at the end of a run. -/
theorem Path.invariant {P : σ → Prop} (hstep : ∀ s a t, P s → step s a t → P t)
    (h : Path step s path) (hs : P s) : P (last s path) := by
  induction path generalizing s with
  | nil => exact hs
  | cons x rest ih => exact ih h.2 (hstep s x.1 x.2 hs h.1)

/-- What a step preserves together with the labels so far holds at the end of a run, together with
its labels. -/
theorem Path.invariant_log {P : List α → σ → Prop}
    (hstep : ∀ log s a t, P log s → step s a t → P (log ++ [a]) t) (h : Path step s path)
    {log : List α} (hs : P log s) :
    P (log ++ path.map Prod.fst) (last s path) := by
  induction path generalizing s log with
  | nil =>
    rw [List.map_nil, List.append_nil]
    exact hs
  | cons x rest ih =>
    have hrest := ih h.2 (hstep log s x.1 x.2 hs h.1)
    rwa [List.append_assoc] at hrest

/-- The run that a list of inputs leads to, up to the first panic. -/
def trace {σ α β : Type} (run : σ → α → Checked (β × σ)) : σ → List α → List ((α × β) × σ)
  | _, [] => []
  | s, a :: rest =>
    match run s a with
    | .ok (b, t) => ((a, b), t) :: trace run t rest
    | .error _ => []

theorem path_trace {β : Type} (run : σ → α → Checked (β × σ)) (s : σ) (inputs : List α) :
    Path (fun s x t => run s x.1 = .ok (x.2, t)) s (trace run s inputs) := by
  induction inputs generalizing s with
  | nil => trivial
  | cons a rest ih =>
    rw [trace]
    split
    · rename_i b t hrun
      exact ⟨hrun, ih t⟩
    · trivial

/-- The same for steps that answer nothing. -/
def follow {σ α : Type} (run : σ → α → Checked σ) : σ → List α → List (α × σ)
  | _, [] => []
  | s, a :: rest =>
    match run s a with
    | .ok t => (a, t) :: follow run t rest
    | .error _ => []

/-- The two parts of a run, and the step between them. -/
theorem Path.split (h : Path step s (before ++ x :: after)) :
    Path step s before ∧ step (last s before) x.1 x.2 ∧ Path step x.2 after := by
  induction before generalizing s with
  | nil => exact ⟨trivial, h.1, h.2⟩
  | cons y rest ih =>
    obtain ⟨hrest, hstep, hafter⟩ := ih h.2
    exact ⟨⟨h.1, hrest⟩, hstep, hafter⟩

/-- Every step of a run is taken where `P` allows it. -/
def AllSteps {σ α : Type} (P : σ → α → Prop) : σ → List (α × σ) → Prop
  | _, [] => True
  | s, (a, t) :: rest => P s a ∧ AllSteps P t rest

variable {P : σ → α → Prop}

theorem AllSteps.split (h : AllSteps P s (before ++ x :: after)) :
    P (last s before) x.1 ∧ AllSteps P x.2 after := by
  induction before generalizing s with
  | nil => exact h
  | cons y rest ih => exact ih h.2

theorem AllSteps.and {Q : σ → α → Prop} (hP : AllSteps P s path) (hQ : AllSteps Q s path) :
    AllSteps (fun s a => P s a ∧ Q s a) s path := by
  induction path generalizing s with
  | nil => trivial
  | cons x rest ih => exact ⟨⟨hP.1, hQ.1⟩, ih hP.2 hQ.2⟩

/-- What an allowed step preserves holds at the end of a run of allowed steps. -/
theorem Path.invariant_of_allSteps {Q : σ → Prop} (hstep : ∀ s a t, Q s → P s a → step s a t → Q t)
    (h : Path step s path) (hall : AllSteps P s path) (hs : Q s) :
    Q (last s path) := by
  induction path generalizing s with
  | nil => exact hs
  | cons x rest ih => exact ih h.2 hall.2 (hstep s x.1 x.2 hs hall.1 h.1)

/-- If from a state of an invariant a step keeps `Q` exactly where `P` allows it, and then
keeps the invariant too, a run keeps `Q` throughout exactly if all its steps are allowed. -/
theorem Path.always_iff {I Q : σ → Prop} (hkeeps : ∀ s a t, I s → step s a t → P s a → I t)
    (hiff : ∀ s a t, I s → step s a t → (Q t ↔ P s a)) (hs : I s) (h : Path step s path) :
    (∀ x ∈ path, Q x.2) ↔ AllSteps P s path := by
  induction path generalizing s with
  | nil => simp [AllSteps]
  | cons x rest ih =>
    obtain ⟨a, t⟩ := x
    obtain ⟨hst, hrest⟩ := h
    simp only [List.mem_cons, forall_eq_or_imp, AllSteps]
    constructor
    · rintro ⟨hq, hall⟩
      have hp := (hiff s a t hs hst).mp hq
      exact ⟨hp, (ih (hkeeps s a t hs hst hp) hrest).mp hall⟩
    · rintro ⟨hp, hall⟩
      exact ⟨(hiff s a t hs hst).mpr hp, (ih (hkeeps s a t hs hst hp) hrest).mpr hall⟩

/-- If every step can be followed by a step with the same label that restores `R`, every run
can be followed label by label. -/
theorem Path.simulate {τ : Type} {step' : τ → α → τ → Prop} {R : σ → τ → Prop}
    (hstep : ∀ s a s' t, R s t → step s a s' → ∃ t', step' t a t' ∧ R s' t') {t : τ} (hR : R s t)
    (h : Path step s path) :
    ∃ path', Path step' t path' ∧
      List.Forall₂ (fun x y => x.1 = y.1 ∧ R x.2 y.2) path path' := by
  induction path generalizing s t with
  | nil => exact ⟨[], trivial, .nil⟩
  | cons x rest ih =>
    obtain ⟨a, s'⟩ := x
    obtain ⟨hst, hrest⟩ := h
    obtain ⟨t', hst', hR'⟩ := hstep s a s' t hR hst
    obtain ⟨path', hpath', hall⟩ := ih hR' hrest
    exact ⟨(a, t') :: path', ⟨hst', hpath'⟩, .cons ⟨rfl, hR'⟩ hall⟩

end Run
