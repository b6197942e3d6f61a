/-! # Library session

The library is initialized once before use and shut down after; initializing again is harmless,
and shutting down a library that is not initialized does nothing. The session is the one flag
that records which of the two happened last.
-/

namespace DriverSynth

/-- The version of the library. -/
def version : String := "0.3.0"

/-- Whether the library is set up for use. -/
structure Session where
  active : Bool := false
deriving Repr, DecidableEq, Inhabited

namespace Session

/-- Sets the library up, also when it already is. -/
def start (_ : Session) : Session := ⟨true⟩

/-- Shuts the library down. -/
def stop (_ : Session) : Session := ⟨false⟩

end Session

end DriverSynth
