import ChatMemory.Json.Decoder

/-!
# Errors

What an operation of the store can report, by cause. Each error has a stable code, a category that
says who should act on it, and a wording. An error that hides a cause without wording of its own has
no wording either (`MemoryError.message?`).
-/

namespace ChatMemory

/-! ## Problems with arguments -/

/-- A problem with an argument. The label says which argument it is. -/
inductive Violation where
  | required (label : String)
  /-- An identifier with a colon, which would run into the next field of a key. -/
  | separator (label value : String)
  /-- A message id that stands for the order index. -/
  | reserved (label value : String)
  /-- An id that occurs twice in a batch. -/
  | repeated (label value : String)
  | negativePage (page : Int)
  | other (text : String)
deriving DecidableEq

namespace Violation

/-- A value in quotes after its label. -/
def quoted (label value : String) : String := label ++ " '" ++ value ++ "'"

def message : Violation → String
  | .required label => label ++ " is required"
  | .separator label value => quoted label value ++ " must not contain ':'"
  | .reserved label value => quoted label value ++ " is reserved"
  | .repeated label value => quoted label value ++ " appears more than once"
  | .negativePage page => "page must be >= 0, got " ++ String.ofList (Number.intText page)
  | .other text => text

end Violation

/-! ## Problems with the set-up -/

/-- A problem with the set-up of a store. -/
inductive ConfigProblem where
  | noHydration
  | noScan
  | noBackend
  | noDatabase
  /-- A database address was given, and this build keeps everything in memory. -/
  | databaseUnavailable
  | other (text : String)
deriving DecidableEq

def ConfigProblem.message : ConfigProblem → String
  | .noHydration => "hydrate_concurrency must be at least 1"
  | .noScan => "scan_concurrency must be at least 1"
  | .noBackend => "an adapter or mongodb_uri is required"
  | .noDatabase => "database is required"
  | .databaseUnavailable => "mongodb_uri requires the `mongodb` feature"
  | .other text => text

/-! ## Failures of the adapter -/

/-- A failure of the key-value adapter. -/
inductive KvError where
  | backend (text : String)
  | serialization (text : String)
deriving DecidableEq

def KvError.message : KvError → String
  | .backend text => "Backend error: " ++ text
  | .serialization text => "Serialization error: " ++ text

/-- What a failed call was about: named identifiers, in the order in which they were given. -/
abbrev ErrorContext := List (String × String)

namespace ErrorContext

def thread (id : String) : ErrorContext := [("threadId", id)]
def message (id : String) : ErrorContext := [("messageId", id)]
def resource (id : String) : ErrorContext := [("resourceId", id)]

/-- One more identifier. -/
def and (context : ErrorContext) (name value : String) : ErrorContext := context ++ [(name, value)]

/-- A message in a thread. -/
def messageIn (threadId messageId : String) : ErrorContext :=
  (thread threadId).and "messageId" messageId

/-- The first identifier of a name. -/
def get? (context : ErrorContext) (name : String) : Option String := context.lookup name

def text (context : ErrorContext) : String :=
  ", ".intercalate (context.map fun (name, value) => name ++ "=" ++ value)

end ErrorContext

/-! ## Errors of the store -/

/-- An error of the store. -/
inductive MemoryError where
  | validation (violations : List Violation)
  | threadNotFound (id : String)
  | messageNotFound (id : String)
  | backend (code : String) (context : ErrorContext) (source : KvError)
  /-- A stored record that does not decode. -/
  | corrupt (key : String) (cause : DecodeError)
  | config (problem : ConfigProblem)

/-- Who should act on an error. -/
inductive ErrorCategory where
  /-- The caller gave bad input or named something that does not exist. -/
  | user
  /-- The adapter failed. -/
  | thirdParty
  /-- Stored data or the set-up is broken. -/
  | system
deriving DecidableEq

namespace MemoryError

/-- The domain of all these errors. -/
def domain : String := "STORAGE"

def code : MemoryError → String
  | .validation _ => "STORAGE_VALIDATION_FAILED"
  | .threadNotFound _ => "STORAGE_THREAD_NOT_FOUND"
  | .messageNotFound _ => "STORAGE_MESSAGE_NOT_FOUND"
  | .backend code _ _ => code
  | .corrupt _ _ => "STORAGE_CORRUPT_RECORD"
  | .config _ => "STORAGE_INVALID_CONFIG"

def category : MemoryError → ErrorCategory
  | .validation _ | .threadNotFound _ | .messageNotFound _ => .user
  | .backend _ _ _ => .thirdParty
  | .corrupt _ _ | .config _ => .system

def isValidation : MemoryError → Bool
  | .validation _ => true
  | _ => false

def context? : MemoryError → Option ErrorContext
  | .backend _ context _ => some context
  | _ => none

/-- The wording of an error, if all of it has words. -/
def message? : MemoryError → Option String
  | .validation violations =>
    some ("Invalid input: " ++ "; ".intercalate (violations.map Violation.message))
  | .threadNotFound id => some ("Thread not found: " ++ id)
  | .messageNotFound id => some ("Message not found: " ++ id)
  | .backend code context source =>
    some ("Storage error [" ++ code ++ "] (" ++ context.text ++ "): " ++ source.message)
  | .corrupt key cause =>
    cause.ownText?.map fun text => "Corrupt record at " ++ key ++ ": " ++ text
  | .config problem => some ("Configuration error: " ++ problem.message)

end MemoryError

end ChatMemory
