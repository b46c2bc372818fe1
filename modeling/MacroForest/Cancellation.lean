/-
**Cancellation.**

An expansion can be told to stop: by raising the flag of its token, or by a deadline on the clock.
Tokens can share a flag, with deadlines of their own.

Main definitions:

* `MacroForest.CancelToken` — what one expansion knows of being cancelled;
* `MacroForest.CancelToken.isCancelled` — the flag is raised or the deadline has come;
* `MacroForest.TokenBank` — tokens that share flags.
-/

set_option relaxedAutoImplicit false
set_option autoImplicit false

namespace MacroForest

/-- The signal that an expansion was cancelled. -/
inductive Cancelled where
  | cancelled
deriving DecidableEq

/-- The wording of the signal. -/
def Cancelled.message (_ : Cancelled) : String := "macro processing was cancelled"

/-- A token: a flag that can be raised, and possibly a deadline. -/
structure CancelToken where
  /-- The flag has been raised. -/
  raised : Bool := false
  /-- The time from which on the token counts as cancelled. -/
  deadline : Option Nat := none
deriving DecidableEq, Inhabited

/-- Whether a token is cancelled at a time. -/
def CancelToken.isCancelled (t : CancelToken) (now : Nat) : Bool :=
  t.raised || t.deadline.any (decide <| · ≤ now)

/-- The signal, if a token is cancelled at a time. -/
def CancelToken.check (t : CancelToken) (now : Nat) : Except Cancelled Unit :=
  if t.isCancelled now then .error .cancelled else .ok ()

/-! ### Tokens that share flags -/

/-- A token whose flag is kept in a bank. -/
structure TokenRef where
  /-- The index of the flag. -/
  flag : Nat
  /-- The deadline of this token. -/
  deadline : Option Nat

/-- Flags, and tokens that refer to them. -/
structure TokenBank where
  /-- The flags, raised or not. -/
  flags : List Bool
  /-- The tokens, in the order in which they were made. -/
  tokens : List TokenRef

namespace TokenBank

/-- A bank without tokens. -/
def empty : TokenBank := ⟨[], []⟩

/-- Adds a token with a flag of its own. -/
def create (b : TokenBank) (deadline : Option Nat) : TokenBank :=
  ⟨b.flags ++ [false], b.tokens ++ [⟨b.flags.length, deadline⟩]⟩

/-- Adds a token that shares the flag of another one and has the deadline `f` makes of its. -/
def share (b : TokenBank) (i : Nat) (f : Option Nat → Option Nat) : TokenBank :=
  match b.tokens[i]? with
  | some t => { b with tokens := b.tokens ++ [⟨t.flag, f t.deadline⟩] }
  | none => b

/-- Raises the flag of a token. -/
def cancel (b : TokenBank) (i : Nat) : TokenBank :=
  match b.tokens[i]? with
  | some t => { b with flags := b.flags.set t.flag true }
  | none => b

/-- The tokens with the present state of their flags. -/
def view (b : TokenBank) : List CancelToken :=
  b.tokens.map fun t => ⟨b.flags.getD t.flag false, t.deadline⟩

end TokenBank

end MacroForest
