import ChatMemory.Error

/-!
# Settings of a store
-/

namespace ChatMemory

/--
The settings of a store.

The two limits say how many records are read at the same time. They have no influence on any answer,
since readings are put together in the order in which they were asked for.
-/
structure StoreConfig where
  /-- Note for each message the thread that holds it, so that it is found without a search. -/
  trackMessageThreads : Bool := false
  hydrateConcurrency : Nat := 16
  scanConcurrency : Nat := 16
deriving DecidableEq

namespace StoreConfig

def withMessageThreadTracking (c : StoreConfig) (enabled : Bool) : StoreConfig :=
  { c with trackMessageThreads := enabled }

def withHydrateConcurrency (c : StoreConfig) (limit : Nat) : StoreConfig :=
  { c with hydrateConcurrency := limit }

def withScanConcurrency (c : StoreConfig) (limit : Nat) : StoreConfig :=
  { c with scanConcurrency := limit }

/-- Neither limit may be zero; the first that is zero is reported. -/
def validate (c : StoreConfig) : Except MemoryError Unit :=
  if c.hydrateConcurrency = 0 then .error (.config .noHydration)
  else if c.scanConcurrency = 0 then .error (.config .noScan)
  else .ok ()

def toJson (c : StoreConfig) : Json :=
  .obj [("hydrate_concurrency", .ofNat c.hydrateConcurrency),
    ("scan_concurrency", .ofNat c.scanConcurrency),
    ("track_message_threads", .bool c.trackMessageThreads)]

/-- Settings that are not given have their defaults. -/
def record : Record StoreConfig :=
  let standard : StoreConfig := {}
  Record.constructor mk
    |>.and (.optional "track_message_threads" Decoder.boolean standard.trackMessageThreads)
    |>.and (.optional "hydrate_concurrency" Decoder.nat64 standard.hydrateConcurrency)
    |>.and (.optional "scan_concurrency" Decoder.nat64 standard.scanConcurrency)

def ofJson : Decoder StoreConfig := record.decode

theorem validate_eq_ok_iff {c : StoreConfig} :
    c.validate = .ok () ↔ 0 < c.hydrateConcurrency ∧ 0 < c.scanConcurrency := by
  simp only [validate]
  split
  · simp; omega
  · split
    · simp; omega
    · simp; omega

end StoreConfig

end ChatMemory
