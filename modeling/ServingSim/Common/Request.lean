import Mathlib.Tactic

/-
  Requests as the workers see them (`common::request_family::autoregressive`).

  A request declares the prompt it brings, the context it shares with earlier
  requests and the tokens it wants back. Ids, times and token counts are natural
  numbers.
-/

namespace ServingSim

abbrev RequestId := Nat
abbrev SessionId := Nat
abbrev Time := Nat

/-- Conversation context declared for one autoregressive request. -/
inductive SessionInput where
  | standalone
  /-- The first `prefixTokens` prompt tokens are declared resident on arrival. -/
  | pinnedPrefix (prefixTokens : Nat)
  | session (sessionId : SessionId) (sessionStartTime : Time) (declaredPrefixTokens : Nat)
  deriving DecidableEq, Repr

namespace SessionInput

def sessionId : SessionInput → Option SessionId
  | standalone | pinnedPrefix _ => none
  | session sessionId _ _ => some sessionId

/-- Oldest-session-first key, with a standalone request treated as its own
one-request conversation. -/
def sessionStartOr (standaloneArrivalTime : Time) : SessionInput → Time
  | standalone | pinnedPrefix _ => standaloneArrivalTime
  | session _ sessionStartTime _ => sessionStartTime

/-- Prefix tokens the request's context includes before its fresh prompt. -/
def declaredPrefixTokens : SessionInput → Nat
  | standalone => 0
  | pinnedPrefix prefixTokens => prefixTokens
  | session _ _ declaredPrefixTokens => declaredPrefixTokens

end SessionInput

end ServingSim
