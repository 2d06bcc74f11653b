import PathRouting.Event

/-!
# Outcomes

An operation that may compile patterns answers, leaves a new state, and reports events.
-/

namespace PathRouting

/-- An answer, the state after it, and the events on the way. -/
structure Outcome (σ β : Type) where
  answer : β
  state : σ
  events : List Event

namespace Outcome

/-- An answer with nothing to report. -/
def quiet {σ β : Type} (answer : β) (state : σ) : Outcome σ β :=
  ⟨answer, state, []⟩

def map {σ β γ : Type} (f : β → γ) (o : Outcome σ β) : Outcome σ γ :=
  { o with answer := f o.answer }

def mapState {σ τ β : Type} (f : σ → τ) (o : Outcome σ β) : Outcome τ β :=
  { o with state := f o.state }

end Outcome

end PathRouting
