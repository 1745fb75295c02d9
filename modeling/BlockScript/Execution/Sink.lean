/-! Where printed text goes: a sink that may have room for a number of bytes only. -/
namespace BlockScript

/-- The bytes taken so far, the latest first, and if the sink is bounded the number it still takes.
A sink may also fail when it is asked to deliver what it took. -/
structure Sink where
  taken : List UInt8
  room : Option Nat
  delivers : Bool
  deriving DecidableEq, Repr

namespace Sink

/-- An empty sink. -/
def new (room : Option Nat) (delivers : Bool) : Sink := ⟨[], room, delivers⟩

/-- The bytes taken so far, in the order in which they were written. -/
def written (sink : Sink) : List UInt8 := sink.taken.reverse

def bytesOf (text : String) : List UInt8 := text.toUTF8.data.toList

/-- Take the bytes there is room for, and tell whether those were all. -/
def write (sink : Sink) (bytes : List UInt8) : Sink × Bool :=
  match sink.room with
  | none => ({ sink with taken := bytes.reverseAux sink.taken }, true)
  | some room =>
    ({ sink with taken := (bytes.take room).reverseAux sink.taken, room := some (room - bytes.length) },
      bytes.length ≤ room)

/-- Write chunks in order, up to the first that is not taken as a whole. -/
def writeAll (sink : Sink) : List (List UInt8) → Sink × Bool
  | [] => (sink, true)
  | bytes :: rest =>
    match sink.write bytes with
    | (sink, true) => sink.writeAll rest
    | (sink, false) => (sink, false)

/-- A text from its bytes; a character that is cut off at the end shows as a replacement. -/
def decode (bytes : List UInt8) : String :=
  match (List.range 4).findSome? fun cut =>
      (String.fromUTF8? ⟨(bytes.take (bytes.length - cut)).toArray⟩).map fun text => (text, cut) with
  | some (text, 0) => text
  | some (text, _) => text ++ "\uFFFD"
  | none => "\uFFFD"

/-- The text written since the sink held a number of bytes. -/
def textSince (sink : Sink) (start : Nat) : String := decode (sink.written.drop start)

end Sink
end BlockScript
