/-!
# Sessions

A saved copy stands beside a state and can be exchanged with it.
-/

namespace PathRouting

structure Session (σ : Type) where
  current : σ
  saved : σ

namespace Session

variable {σ : Type}

/-- A session that starts with a saved copy of its state. -/
def start (state : σ) : Session σ :=
  ⟨state, state⟩

def save (s : Session σ) : Session σ :=
  { s with saved := s.current }

def swap (s : Session σ) : Session σ :=
  ⟨s.saved, s.current⟩

/-- The session with another current state. -/
def set (s : Session σ) (state : σ) : Session σ :=
  { s with current := state }

end Session

end PathRouting
