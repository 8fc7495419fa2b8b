import LinkSet.Epoch
import LinkSet.Protocol

/-!
# The session protocol of one endpoint

What an endpoint looks like to its user and to its peer: the state it is in with its epoch, the
events it reports and the resets it sends. Links, timers and messages are left out; the core
refines this protocol.
-/

namespace LinkSet

inductive Phase where
  | disconnected (epoch : Option Epoch)
  | connecting (epoch : Option Epoch)
  | mismatch (epoch : Option Epoch)
  | connected (epoch : Epoch)
  | reconnecting (epoch : Epoch)
  | gracePeriod (epoch : Epoch)
deriving DecidableEq

namespace Phase

def epoch : Phase → Option Epoch
  | disconnected epoch => epoch
  | connecting epoch => epoch
  | mismatch epoch => epoch
  | connected epoch => some epoch
  | reconnecting epoch => some epoch
  | gracePeriod epoch => some epoch

/-- The epoch of the session, in the three states that have one. -/
def session : Phase → Option Epoch
  | disconnected _ => none
  | connecting _ => none
  | mismatch _ => none
  | connected epoch => some epoch
  | reconnecting epoch => some epoch
  | gracePeriod epoch => some epoch

/-- The epoch as it travels, zero if there is none. -/
def level (p : Phase) : Nat := optEpochToInt p.epoch

theorem epoch_of_session {p : Phase} {e : Epoch} (h : p.session = some e) : p.epoch = some e := by
  cases p with
  | disconnected _ => cases h
  | connecting _ => cases h
  | mismatch _ => cases h
  | connected _ => exact h
  | reconnecting _ => exact h
  | gracePeriod _ => exact h

end Phase

/-- What makes an endpoint move. -/
inductive Stimulus where
  | connect
  | disconnect
  | addLink
  | message (epoch : Option Epoch)
  | frame (msg : LinkProtocol)
  | timer
  | other

/-- What of its output the protocol is about. -/
inductive Signal where
  | disconnected
  | connected (epoch : Epoch)
  | attempting (active : Bool)
  | message (epoch : Epoch)
  | reset (epoch : Option Epoch) (request : Bool)
  /-- A new manager for the messages of a session. -/
  | fresh (epoch : Epoch)
deriving DecidableEq

/-- The signal is given, unless there is no link to give it over. -/
def Perhaps (s : Signal) (out : List Signal) : Prop := out = [] ∨ out = [s]

/-- The output of a session that goes on: messages for the user and answers to requests. -/
def Chatter (e : Epoch) (out : List Signal) : Prop :=
  ∀ s ∈ out, s = .message e ∨ s = .reset (some e) false

/-- The moves of an endpoint. -/
inductive Phase.Step : Phase → Stimulus → Phase → List Signal → Prop where
  | idle (p stim) (hp : p.session = none) : Step p stim p []
  -- setting up a connection
  | connect {ep stim} (hstim : stim = .connect ∨ stim = .message none) :
      Step (.disconnected ep) stim (.connecting ep) [.attempting true]
  | firstLink {ep out} (hout : Perhaps (.reset ep true) out) :
      Step (.disconnected ep) .addLink (.mismatch ep) out
  | giveUp {ep stim} (hstim : stim = .disconnect ∨ stim = .timer) :
      Step (.connecting ep) stim (.disconnected ep) [.attempting false]
  | linkMade {ep out} (hout : Perhaps (.reset ep true) out) :
      Step (.connecting ep) .addLink (.mismatch ep) (out ++ [.attempting false])
  -- negotiating an epoch
  | abandon {ep stim} (hstim : stim = .disconnect ∨ stim = .timer) :
      Step (.mismatch ep) stim (.disconnected (optEpochIncrement ep)) []
  | retry {ep} : Step (.mismatch ep) .timer (.connecting ep) [.attempting true]
  | request {ep out} (hout : Perhaps (.reset ep true) out) :
      Step (.mismatch ep) .timer (.mismatch ep) out
  | insist {ep x req out} (hgt : compareEpochs ep x = .gt) (hout : Perhaps (.reset ep false) out) :
      Step (.mismatch ep) (.frame (.reset x req)) (.mismatch ep) out
  | confirm {e req out} (hout : Perhaps (.reset (some e) false) out) :
      Step (.mismatch (some e)) (.frame (.reset (some e) req)) (.connected e)
        (out ++ [.connected e, .fresh e])
  | adopt {ep x req out} (hlt : compareEpochs ep x = .lt)
      (hout : Perhaps (.reset (some (x.getD Epoch.one)) false) out) :
      Step (.mismatch ep) (.frame (.reset x req)) (.connected (x.getD Epoch.one))
        (out ++ [.connected (x.getD Epoch.one), .fresh (x.getD Epoch.one)])
  -- a session with links
  | talk {e stim out} (hout : Chatter e out) : Step (.connected e) stim (.connected e) out
  | close {e} : Step (.connected e) .disconnect (.disconnected (some e.increment)) [.disconnected]
  | lost {e stim out} (hout : Chatter e out) :
      Step (.connected e) stim (.disconnected (some e.increment)) (out ++ [.disconnected])
  | reconnect {e stim out} (hout : Chatter e out) :
      Step (.connected e) stim (.reconnecting e) (out ++ [.attempting true])
  | wait {e stim out} (hout : Chatter e out) : Step (.connected e) stim (.gracePeriod e) out
  | mismatch {e x out} (hx : x ≠ some e) (hout : Perhaps (.reset (some e.increment) true) out) :
      Step (.connected e) (.frame (.reset x true)) (.mismatch (some e.increment)) out
  -- a session without links
  | listenReconnecting {e stim out} (hout : Chatter e out) :
      Step (.reconnecting e) stim (.reconnecting e) out
  | listenGracePeriod {e stim out} (hout : Chatter e out) :
      Step (.gracePeriod e) stim (.gracePeriod e) out
  | reconnected {e} : Step (.reconnecting e) .addLink (.connected e) [.attempting false]
  | returned {e} : Step (.gracePeriod e) .addLink (.connected e) []
  | reconnectEnds {e stim} (hstim : stim = .disconnect ∨ stim = .timer) :
      Step (.reconnecting e) stim (.disconnected (some e.increment))
        [.attempting false, .disconnected]
  | reconnectRestarts {e stim}
      (hstim : stim = .timer ∨ stim = .frame (.reset (some e) true)) :
      Step (.reconnecting e) stim (.connecting (some e.increment)) [.disconnected]
  | graceEnds {e stim}
      (hstim : stim = .disconnect ∨ stim = .timer ∨ stim = .frame (.reset (some e) true)) :
      Step (.gracePeriod e) stim (.disconnected (some e.increment)) [.disconnected]
  | graceRestarts {e} :
      Step (.gracePeriod e) .timer (.connecting (some e.increment))
        [.disconnected, .attempting true]

end LinkSet
