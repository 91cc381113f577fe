import CoreSql.Basic

/-!
# Query buffers

`query_control.hpp`: what a query holds in buffers is charged to the control
that is active when the buffer is made and to the controls that one is nested
in. A control whose usage its predecessor has too skips it, so that a cursor
is not charged twice. Work, cancellation and deadlines are left out: they
touch no buffer.
-/

namespace CoreSql

/-- `QueryUsage`, as far as buffers go. -/
structure QueryUsage where
  buffer : UInt64 := 0
  peakBuffer : UInt64 := 0

abbrev Usages := Nat → QueryUsage

/-- One `QueryControl`: its limit, and the address of the usage it charges. -/
structure ControlLevel where
  maxBufferBytes : UInt64
  usage : Nat
  deriving DecidableEq

/-- `QueryControl*`: the control with its parent, that one's parent and so on. Null is empty. -/
abbrev QueryControl := List ControlLevel

namespace QueryControl

/-- The constructor, over the control that is active. -/
def make (l : ControlLevel) : QueryControl → QueryControl
  | [] => [l]
  | previous :: parent =>
    if previous.usage = l.usage then l :: parent else l :: previous :: parent

/-- `reserve`. What a failure leaves behind is returned with it. -/
def reserve (bytes : UInt64) : QueryControl → Usages → Except Error Unit × Usages
  | [], u => (.ok (), u)
  | l :: parent, u =>
    if l.maxBufferBytes - (u l.usage).buffer < bytes then
      (fail .resource "Query buffer limit exceeded", u)
    else
      match reserve bytes parent u with
      | (.error e, u) => (.error e, u)
      | (.ok (), u) =>
        let buffer := (u l.usage).buffer + bytes
        (.ok (), Function.update u l.usage
          { buffer, peakBuffer := max (u l.usage).peakBuffer buffer })

def release (bytes : UInt64) : QueryControl → Usages → Usages
  | [], u => u
  | l :: parent, u =>
    release bytes parent
      (Function.update u l.usage { u l.usage with buffer := (u l.usage).buffer - bytes })

end QueryControl

structure QueryBuffer where
  control : QueryControl
  bytes : UInt64 := 0

namespace QueryBuffer

/-- `std::numeric_limits<std::size_t>::max()`. -/
def sizeMax : UInt64 := 18446744073709551615

def add (bytes : UInt64) (b : QueryBuffer) (u : Usages) :
    Except Error Unit × QueryBuffer × Usages :=
  if b.control = [] then (.ok (), b, u)
  else if sizeMax - b.bytes < bytes then (fail .resource "Query buffer size overflow", b, u)
  else
    match b.control.reserve bytes u with
    | (.error e, u) => (.error e, b, u)
    | (.ok (), u) => (.ok (), { b with bytes := b.bytes + bytes }, u)

def remove (bytes : UInt64) (b : QueryBuffer) (u : Usages) : QueryBuffer × Usages :=
  if b.control = [] then (b, u)
  else ({ b with bytes := b.bytes - bytes }, b.control.release bytes u)

/-- `~QueryBuffer`. -/
def destroy (b : QueryBuffer) (u : Usages) : Usages :=
  if b.control = [] then u else b.control.release b.bytes u

end QueryBuffer

/-- The active controls, innermost first: each has a usage of its own, or the usage and the options
of the control it is nested on. -/
inductive Stacked : List QueryControl → Prop where
  | nil : Stacked []
  | own {stack : List QueryControl} (l : ControlLevel) (h : Stacked stack)
      (hnew : ∀ c ∈ stack, ∀ l' ∈ c, l'.usage ≠ l.usage) :
      Stacked (QueryControl.make l (stack.headD []) :: stack)
  | shared {l : ControlLevel} {parent : QueryControl} {stack : List QueryControl}
      (h : Stacked ((l :: parent) :: stack)) :
      Stacked (QueryControl.make l (l :: parent) :: (l :: parent) :: stack)

structure Buffered where
  usages : Usages := fun _ => {}
  buffers : List QueryBuffer := []

/-- What can come of buffers that are made while one of the controls is active. A buffer removes at
most what it holds. -/
inductive Buffered.Reachable (stack : List QueryControl) : Buffered → Prop where
  | start : Reachable stack {}
  | attach {w : Buffered} {c : QueryControl} (h : Reachable stack w) (hc : c ∈ stack) :
      Reachable stack { w with buffers := { control := c } :: w.buffers }
  | add {u : Usages} {pre post : List QueryBuffer} {b : QueryBuffer} (bytes : UInt64)
      (h : Reachable stack ⟨u, pre ++ b :: post⟩) :
      Reachable stack ⟨(b.add bytes u).2.2, pre ++ (b.add bytes u).2.1 :: post⟩
  | remove {u : Usages} {pre post : List QueryBuffer} {b : QueryBuffer} {bytes : UInt64}
      (h : Reachable stack ⟨u, pre ++ b :: post⟩) (hbytes : bytes ≤ b.bytes) :
      Reachable stack ⟨(b.remove bytes u).2, pre ++ (b.remove bytes u).1 :: post⟩
  | destroy {u : Usages} {pre post : List QueryBuffer} {b : QueryBuffer}
      (h : Reachable stack ⟨u, pre ++ b :: post⟩) :
      Reachable stack ⟨b.destroy u, pre ++ post⟩

end CoreSql
