import Mizu.Messages
import Mizu.Security.Navigation

/-!
# Commands to the network worker and its results

The worker runs every command as a task of its own, so results come back in any order;
`NetworkCmd.answer` says what a result repeats of its command. Image fetches only affect the layout
and are left out of the results.
-/

namespace Mizu

inductive NetworkCmd where
  | fetch (tab : TabId) (method url targetVar : String) (isRemoteOrigin : Bool)
      (payload : Option Value) (format : PayloadFormat) (headers : List (String × Value))
  | navigate (tab : TabId) (url : String) (initiator : NavigationInitiator)
  | fetchImage (tab : TabId) (url : String) (isRemoteOrigin : Bool) (sandboxBase : Option String)
  /-- A call whose alias nothing resolved; the worker drops it. -/
  | networkRequest (tab : TabId) (method : NetworkMethod) (endpointSymbol : Nat)
      (payload : Option Value) (pathParam : Option String) (targetVariable : Symbol)
      (format : PayloadFormat) (headers : List (String × Value))
  | storageStore (domain key : String) (value : Value)

inductive NetworkResult where
  | success (tab : TabId) (targetVar : String) (data : Value)
  | fetchFailed (tab : TabId) (targetVar : String) (error : MizuError)
  | navigateSuccess (tab : TabId) (url source : String)
  | navigationRedirect (tab : TabId) (newUrl : String) (initiator : NavigationInitiator)
  | error (tab : Option TabId) (e : MizuError)

/-- How the worker's task for a command ends. -/
inductive Completion where
  | received (data : Value)
  | source (text : String)
  | redirect (newUrl : String)
  | failed (e : MizuError)
  /-- The payload cannot be serialised. -/
  | unsent (e : MizuError)

/-- The result that the worker sends for a command; it echoes the tab and the variable, the URL or
the initiator. -/
def NetworkCmd.answer : NetworkCmd → Completion → Option NetworkResult
  | fetch tab _ _ targetVar _ _ _ _, .received data => some (.success tab targetVar data)
  | fetch tab _ _ targetVar _ _ _ _, .failed e => some (.fetchFailed tab targetVar e)
  | fetch tab _ _ _ _ _ _ _, .unsent e => some (.error (some tab) e)
  | navigate tab url _, .source text => some (.navigateSuccess tab url text)
  | navigate tab _ initiator, .redirect newUrl => some (.navigationRedirect tab newUrl initiator)
  | navigate tab _ _, .failed e => some (.error (some tab) e)
  | _, _ => none

end Mizu
