import Mathlib

/-!
# The reliable sender

A `Connection` keeps one TCP connection to a peer alive, and transmits again what was not
acknowledged. Its state is the one in which its task awaits; an event is what the task is given
there, or what a caller does with the channel or with a cancel handler. As logs the state holds what
was submitted, what was written on the current stream, what the handlers were sent and the warnings.
The address and the causes of errors are left out.
-/

namespace NovelDag.Network

inductive NetworkError
  | failedToConnect (retry : UInt16)
  | failedToSendMessage
  | failedToReceiveAck
  | unexpectedAck

/-- The cancel handler is the number of the message in the order of submission. -/
structure InnerMessage where
  data : List UInt8
  cancelHandler : ℕ
  deriving DecidableEq

/-- What the task awaits: `TcpStream::connect`, the select of `run`, `writer.send` or the select of
`keep_alive`. -/
inductive Await
  | connect
  | timer
  | write (message : InnerMessage)
  | select
  deriving DecidableEq

/-- The message that is being written. -/
def Await.message : Await → Option InnerMessage
  | write message => some message
  | _ => none

structure Connection where
  /-- The messages in the channel. -/
  receiver : List InnerMessage := []
  retryDelay : ℕ := 200
  buffer : List InnerMessage := []
  delay : ℕ := retryDelay
  retry : UInt16 := 0
  pendingReplies : List InnerMessage := []
  awaits : Await := .connect
  /-- The cancel handlers that were dropped. -/
  cancelled : Finset ℕ := ∅
  submitted : List InnerMessage := []
  written : List InnerMessage := []
  /-- The handlers that were sent an ACK. -/
  acknowledged : List (ℕ × List UInt8) := []
  warnings : List NetworkError := []

inductive Event
  | submit (data : List UInt8)
  | cancel (handler : ℕ)
  | connect (ok : Bool)
  | timer
  | recv
  | write (ok : Bool)
  /-- The bytes of an ACK, or none if the stream has ended or failed. -/
  | response (bytes : Option (List UInt8))

namespace Connection

variable (s : Connection)

def isClosed (message : InnerMessage) : Bool := decide (message.cancelHandler ∈ s.cancelled)

/-- Try to send the messages of the buffer, up to the first that has not been cancelled. -/
def transmit : Connection :=
  match s.buffer.dropWhile s.isClosed with
  | [] => { s with buffer := [], awaits := .select }
  | message :: buffer => { s with buffer, awaits := .write message }

/-- The stream is given up: the messages without an ACK go back into the buffer. -/
def disconnect (error : NetworkError) : Connection :=
  { s with
    buffer := s.pendingReplies.foldr List.cons s.buffer
    pendingReplies := []
    written := []
    warnings := s.warnings ++ [error]
    awaits := .connect }

/-- An ACK, or the end of the stream. -/
def respond (response : Option (List UInt8)) : Connection :=
  match s.pendingReplies with
  | [] => s.disconnect .unexpectedAck
  | message :: pendingReplies =>
    match response with
    | some bytes =>
      { s with
        pendingReplies
        acknowledged := s.acknowledged ++ [(message.cancelHandler, bytes)] }.transmit
    | none => s.disconnect .failedToReceiveAck

/-- `connections.entry(address).send(..)` and the cancel handler. -/
def submit (data : List UInt8) : Connection :=
  let message := { data, cancelHandler := s.submitted.length }
  { s with receiver := s.receiver ++ [message], submitted := s.submitted ++ [message] }

def step (event : Event) : Option Connection :=
  match s.awaits, event with
  | _, .submit data => some (s.submit data)
  | _, .cancel handler =>
    if handler < s.submitted.length then some { s with cancelled := insert handler s.cancelled }
    else none
  | .connect, .connect true =>
    some { s with delay := s.retryDelay, retry := 0, pendingReplies := [], written := [] }.transmit
  | .connect, .connect false =>
    some { s with warnings := s.warnings ++ [.failedToConnect s.retry], awaits := .timer }
  | .timer, .timer =>
    some { s with delay := min (2 * s.delay) 60000, retry := s.retry + 1, awaits := .connect }
  | .timer, .recv =>
    match s.receiver with
    | [] => none
    | message :: receiver =>
      some { s with
        receiver
        buffer := (s.buffer ++ [message]).filter fun message => !s.isClosed message }
  | .write message, .write true =>
    some { s with
      pendingReplies := s.pendingReplies ++ [message]
      written := s.written ++ [message] }.transmit
  | .write message, .write false =>
    some ({ s with buffer := message :: s.buffer }.disconnect .failedToSendMessage)
  | .select, .recv =>
    match s.receiver with
    | [] => none
    | message :: receiver => some { s with receiver, buffer := s.buffer ++ [message] }.transmit
  | .select, .response response => some (s.respond response)
  | _, _ => none

def run (events : List Event) : Option Connection := events.foldlM step s

end Connection

end NovelDag.Network
