import ByteEmbed.Declaration.Render

/-!
# Text sinks

A sink collects text, piece after piece, up to an optional limit in bytes.  A write
leaves the sink with the piece behind its text, or fails and leaves the text as it is.
What has been written stays, whatever fails after it.  A declaration is handed over as
one piece, so that a sink never holds part of one.
-/

namespace ByteEmbed

/-- Collected text and the number of bytes that it may not exceed, if any. -/
structure Sink where
  text : Text := []
  limit : Option Nat := none
  deriving DecidableEq, Repr

namespace Sink

/-- Whether a piece fits behind the text of a sink. -/
def Fits (sink : Sink) (piece : Text) : Prop :=
  ∀ limit ∈ sink.limit, Text.byteLength sink.text + Text.byteLength piece ≤ limit

instance (sink : Sink) (piece : Text) : Decidable (sink.Fits piece) :=
  inferInstanceAs (Decidable (∀ limit ∈ sink.limit, _))

/-- What became of a write: whether it was taken, and the sink after it. -/
structure Receipt where
  taken : Bool
  sink : Sink
  deriving DecidableEq, Repr

/-- Writes a piece, which is taken if it fits. -/
def write (sink : Sink) (piece : Text) : Receipt :=
  if sink.Fits piece then ⟨true, { sink with text := sink.text ++ piece }⟩ else ⟨false, sink⟩

/-- Writes the text of a declaration. -/
def writeDeclaration (sink : Sink) (d : Declaration) : Receipt :=
  sink.write d.render

/-- Offers declarations one after the other.  A refusal does not stop the rest, and each
of them finds the sink as the one before has left it. -/
def offer (sink : Sink) : List Declaration → List Receipt
  | [] => []
  | d :: rest =>
      let receipt := sink.writeDeclaration d
      receipt :: receipt.sink.offer rest

end Sink
end ByteEmbed
