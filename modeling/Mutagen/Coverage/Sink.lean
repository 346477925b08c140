import Mutagen.Text.Encoding

/-!
# Sinks

A sink takes bytes. It decides for every call how many of the bytes on offer it accepts, none
included, or fails; what it does may depend on all that happened to it before. An attempt that is
interrupted is made again, so it is no answer.
-/

namespace Mutagen

/-- The behaviour of a sink with states of type `σ`. Failures are given by their message. -/
structure Sink (σ : Type) where
  accept : σ → Bytes → σ × Except String Nat
  flush : σ → σ × Except String Unit

def Sink.accepting : Sink Unit where
  accept _ bytes := ((), .ok bytes.length)
  flush _ := ((), .ok ())

structure Outlet (σ : Type) where
  state : σ
  received : Bytes
  deriving BEq, DecidableEq, Repr

namespace Outlet

variable {σ : Type}

/-- Offers bytes once. A sink cannot accept more than it is offered. -/
def offer (sink : Sink σ) (o : Outlet σ) (bytes : Bytes) : Outlet σ × Except String Nat :=
  match sink.accept o.state bytes with
  | (state, .error message) => (⟨state, o.received⟩, .error message)
  | (state, .ok count) =>
    (⟨state, o.received ++ bytes.take count⟩, .ok (min count bytes.length))

/-- Offers bytes until all are accepted, the sink fails or it accepts none. -/
def deliver (sink : Sink σ) (o : Outlet σ) (bytes : Bytes) : Outlet σ × Except String Unit :=
  if bytes = [] then (o, .ok ())
  else match offer sink o bytes with
    | (o, .error message) => (o, .error message)
    | (o, .ok count) =>
      if count = 0 then (o, .error "failed to write whole buffer")
      else deliver sink o (bytes.drop count)
termination_by bytes.length
decreasing_by
  have := List.length_pos_iff.2 ‹¬bytes = []›
  simp only [List.length_drop]
  omega

def flush (sink : Sink σ) (o : Outlet σ) : Outlet σ × Except String Unit :=
  match sink.flush o.state with
  | (state, result) => (⟨state, o.received⟩, result)

end Outlet

end Mutagen
