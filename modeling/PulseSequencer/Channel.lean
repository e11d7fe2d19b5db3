/-!
# Output channels

A synthesizer has four RF outputs and seven digital outputs. RF channels come before digital ones
wherever channels are listed.
-/

namespace PulseSequencer

inductive Channel where
  | rf (index : Fin 4)
  | digital (index : Fin 7)
  deriving DecidableEq

namespace Channel

def isRf : Channel → Bool
  | .rf _ => true
  | .digital _ => false

def index : Channel → Nat
  | .rf index => index
  | .digital index => index

/-- The place of a channel among all channels. -/
def position : Channel → Nat
  | .rf index => index
  | .digital index => 4 + index

/-- All channels in order. -/
def all : List Channel :=
  (List.finRange 4).map .rf ++ (List.finRange 7).map .digital

def name : Channel → String
  | .rf index => s!"RF{index.val}"
  | .digital index => s!"D{index.val}"

def rf? (index : Nat) : Option Channel :=
  if valid : index < 4 then some (.rf ⟨index, valid⟩) else none

def digital? (index : Nat) : Option Channel :=
  if valid : index < 7 then some (.digital ⟨index, valid⟩) else none

/-- The value of a single ASCII digit. -/
private def digit? (c : Char) : Option Nat :=
  if c.isDigit then some (c.toNat - '0'.toNat) else none

/-- Reads a name such as `RF0` or `D6`: the kind and exactly one digit. -/
def ofName? (name : String) : Option Channel :=
  match name.toList with
  | ['R', 'F', c] => do rf? (← digit? c)
  | ['D', c] => do digital? (← digit? c)
  | _ => none

end Channel

/-- A set of channels, one bit for each channel in order. -/
structure ChannelSet where
  bits : BitVec 11
  deriving DecidableEq

namespace ChannelSet

def empty : ChannelSet := ⟨0⟩

instance : Inhabited ChannelSet := ⟨empty⟩

def contains (s : ChannelSet) (channel : Channel) : Bool :=
  s.bits.getLsbD channel.position

instance : Membership Channel ChannelSet := ⟨fun s channel => s.contains channel = true⟩
instance (channel : Channel) (s : ChannelSet) : Decidable (channel ∈ s) :=
  inferInstanceAs (Decidable (_ = true))

def insert (s : ChannelSet) (channel : Channel) : ChannelSet :=
  ⟨s.bits ||| BitVec.twoPow 11 channel.position⟩

def union (s t : ChannelSet) : ChannelSet :=
  ⟨s.bits ||| t.bits⟩

instance : Union ChannelSet := ⟨union⟩

def inter (s t : ChannelSet) : ChannelSet :=
  ⟨s.bits &&& t.bits⟩

instance : Inter ChannelSet := ⟨inter⟩

def isEmpty (s : ChannelSet) : Bool :=
  s.bits == 0

def ofList (channels : List Channel) : ChannelSet :=
  channels.foldl insert empty

/-- The channels of the set in order. -/
def toList (s : ChannelSet) : List Channel :=
  Channel.all.filter s.contains

end ChannelSet

end PulseSequencer
