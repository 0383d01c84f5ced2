import Growable.Size

/-!
# Allocators and handles

An allocator is known by its place among the allocators of a world, and by its identity, by which
allocators are compared.  A sequence reaches its allocator through a `Handle`, which adds three policies:
the most bytes that a block may have, whether copy-assignment carries the handle over to the assigned
sequence, and which allocators may release each other's blocks.
-/

namespace Growable

/-- Who an allocator is. -/
inductive Identity where
  /-- The allocator that the whole program shares. -/
  | shared
  /-- An allocator with a number of its own. -/
  | numbered (id : Nat)
  deriving DecidableEq

/-- An allocator: where its account is kept, and who it is. -/
structure Allocator where
  place : Nat
  identity : Identity
  deriving DecidableEq

/-- The name of an allocator in diagnostics. -/
def Allocator.debugText (allocator : Allocator) : String :=
  match allocator.identity with
  | .shared => "Global"
  | .numbered id => s!"Alloc({id})"

/-- An allocator with the policies that govern its use by a sequence. -/
structure Handle where
  allocator : Allocator
  /-- The most bytes that one block may have. -/
  maxBytes : Nat
  /-- Whether copy-assignment from a sequence with this handle hands it over. -/
  propagates : Bool
  /-- Whether a block of the first allocator may be released through the second. -/
  interchangeable : Allocator → Allocator → Bool
  /-- No block is larger than the memory can address. -/
  maxBytes_le : maxBytes ≤ Size.blockLimit

namespace Handle

/-- The handle of an allocator without further policies: blocks as large as possible, no propagation,
and every allocator interchangeable with every other. -/
def of (allocator : Allocator) : Handle where
  allocator
  maxBytes := Size.blockLimit
  propagates := false
  interchangeable _ _ := true
  maxBytes_le := Nat.le_refl _

/-- Caps the bytes of a block, as far as memory allows. -/
def capped (handle : Handle) (maxBytes : Nat) : Handle :=
  { handle with maxBytes := min maxBytes Size.blockLimit, maxBytes_le := Nat.min_le_right _ _ }

/-- Decides whether copy-assignment hands the handle over. -/
def propagating (handle : Handle) (propagates : Bool) : Handle :=
  { handle with propagates }

/-- Decides which allocators may release each other's blocks. -/
def interchanging (handle : Handle) (rule : Allocator → Allocator → Bool) : Handle :=
  { handle with interchangeable := rule }

/-- The rule by which only allocators of one identity are interchangeable. -/
def sameIdentity (left right : Allocator) : Bool :=
  left.identity == right.identity

/-- The most elements of `bytes` bytes each that one block may hold.  Elements without bytes need no
block, so that only the largest size limits them. -/
def maxSize (handle : Handle) (bytes : Nat) : Nat :=
  if bytes = 0 then Size.limit else handle.maxBytes / bytes

/-- Whether blocks may pass between the allocators of two handles, by the rule of the first. -/
def isEquivalent (handle other : Handle) : Bool :=
  handle.interchangeable handle.allocator other.allocator

/-- The text of a handle for a reader of diagnostics. -/
def debugText (handle : Handle) : String :=
  s!"AllocatorHandle \x7b allocator: {handle.allocator.debugText}, max_bytes: {handle.maxBytes}, " ++
    s!"propagate_on_copy: {handle.propagates}, .. \x7d"

end Handle

end Growable
