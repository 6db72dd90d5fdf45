import ReflectivePi.Delta.Op

/-!
# Services — Types

What a service provider and its consumers tell each other. The payload of
a state is a batch of operations on either side of the wire codec and a
batch of wire tuples between, so the types take it as a parameter.
-/

namespace ReflectivePi.Services

inductive ServiceMode where
  | singleton
  | keyed
  deriving DecidableEq

/-- Which life of which key: a respawned key has a new generation. -/
structure ServiceInstanceAddress where
  key : String
  generation : Nat
  deriving DecidableEq

variable {ω : Type}

inductive ServiceMemberSnapshot (ω : Type) where
  | method (name : String)
  | state (name : String) (sequence : Nat) (ops : ω)

/-- One instance; the instance of a singleton has no address. -/
structure ServiceInstanceSnapshot (ω : Type) where
  address : Option ServiceInstanceAddress
  members : List (ServiceMemberSnapshot ω)

structure ServiceSubscriptionSnapshot (ω : Type) where
  serviceId : String
  mode : ServiceMode
  instances : List (ServiceInstanceSnapshot ω)

inductive ServiceProviderUpdate (ω : Type) where
  | state (address : Option ServiceInstanceAddress) (member : String) (sequence : Nat) (ops : ω)
  | unavailable
  | replaced (snapshot : ServiceInstanceSnapshot ω)
  | spawned (snapshot : ServiceInstanceSnapshot ω)
  | closed (address : ServiceInstanceAddress)

/-- What `stateKey` and `stateMemberKey` make a string of. -/
abbrev StateKey := Option ServiceInstanceAddress × String

def ServiceMemberSnapshot.stateKey? (address : Option ServiceInstanceAddress) :
    ServiceMemberSnapshot ω → Option StateKey
  | .method _ => none
  | .state name _ _ => some (address, name)

def ServiceInstanceSnapshot.stateKeys (snapshot : ServiceInstanceSnapshot ω) : List StateKey :=
  snapshot.members.filterMap (ServiceMemberSnapshot.stateKey? snapshot.address)

/-- The batches of the state members. -/
def ServiceInstanceSnapshot.batches (snapshot : ServiceInstanceSnapshot ω) : List ω :=
  snapshot.members.filterMap fun
    | .method _ => none
    | .state _ _ ops => some ops

end ReflectivePi.Services
