import AugmentedBnf.Reader.Document

/-!
# Reading streams

A document may arrive in pieces. It has ended when a piece is empty, an interruption is passed
over, and a failure leaves no document at all, whatever has arrived before.
-/

namespace AugmentedBnf

/-- What an attempt to take more of a stream gives. -/
inductive StreamEvent where
  /-- Some octets, or the end of the stream if there are none. -/
  | piece (octets : List Octet)
  /-- Nothing this time. -/
  | interruption
  /-- Nothing ever, for a reason. -/
  | failure (reason : String)
deriving DecidableEq, Repr

/-- All octets of a stream, or the reason why they cannot be had. -/
def StreamEvent.octets : List StreamEvent → Except String (List Octet)
  | [] | .piece [] :: _ => .ok []
  | .piece octets :: events => (octets ++ ·) <$> StreamEvent.octets events
  | .interruption :: events => StreamEvent.octets events
  | .failure reason :: _ => .error reason

def Grammar.ofStream (events : List StreamEvent) : Except ReadError Grammar :=
  match StreamEvent.octets events with
  | .ok document => Grammar.read document
  | .error reason => .error (.stream reason)

end AugmentedBnf
