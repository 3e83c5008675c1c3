import Anemone.Model.Flock

/-!
# What `flock` promises

Who holds what on an inode, when a request may say that it is complete, what a retirement leaves,
and that no request sleeps without a reason.
-/

namespace Anemone.Flock

/-- An owner has one grant at most, and an exclusive grant is the only one. -/
structure Compatible (grants : List FlockGrant) : Prop where
  nodup : (grants.map FlockGrant.owner).Nodup
  alone : ∀ grant ∈ grants, grant.mode = .exclusive → grants = [grant]

def Without (grants : List FlockGrant) (owner : ℕ) : Prop := ∀ grant ∈ grants, grant.owner ≠ owner

def Stage.Owes : Stage → Prop
  | .converted _ _ _ | .unlocked | .retiring _ | .withdrawn _ => True
  | _ => False

namespace System

def Op.thread : Op → Option ℕ
  | .request thread _ _ _ | .enter thread _ _ | .finish thread _ _ _
  | .publishConverted thread _ _ _ | .publishUnlocked thread | .enterTest thread _ _
  | .finishTest thread _ _ _ | .interrupt thread _ _ _ | .releaseRef thread _
  | .retire thread _ | .publishRetired thread _ => some thread
  | .acquireRef _ => none

/-- The thread can go on, or the one that it waits for at the lock can. -/
def CanGoOn (s : System) (thread : ℕ) : Prop :=
  ∃ op, s.Enabled op ∧ (op.thread = some thread ∨ (op.thread = s.guard ∧ s.guard ≠ none))

/-- What holds of the grants in a state, and of the next step. -/
structure Sound (s : System) : Prop where
  compatible : Compatible s.grants
  returns : ∀ op, s.Enabled op → ∃ t, s.run op = .ok t
  /-- A lock that is reported complete is held when its section ends. -/
  locked : ∀ thread owner mode nonblocking live t,
    Step s (.finish thread owner (.lock mode nonblocking) live) t →
    t.threads thread = .returned .complete → ⟨owner, mode⟩ ∈ t.grants
  /-- An unlock that does not report a retirement leaves its owner without a grant. -/
  unlocked : ∀ thread owner live t, Step s (.finish thread owner .unlock live) t →
    t.threads thread ≠ .returned .retired → Without t.grants owner
  /-- After a retirement has returned its owner has no grant. -/
  retired : ∀ thread owner, s.threads thread = .released owner → Without s.grants owner
  /-- A request that sleeps although its owner is retired or nobody is in its way is about to be
  woken: some thread is going to publish, and can go on. -/
  blocked : ∀ thread owner mode, s.threads thread = .listening owner mode false →
    s.live owner = false ∨ conflicts s.grants owner mode = false →
    ∃ publisher, (s.threads publisher).Owes ∧ s.CanGoOn publisher

end System

end Anemone.Flock
