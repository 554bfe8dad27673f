import ChatMemory.Store.Basic

/-!
# Setting up a store

A builder collects what a store is made of: an adapter in memory, or else the address and name of a
database, and the settings. The settings are judged first. This library keeps everything in memory, so
a database can be named but not opened.

A deployment is the same as a document: the kind of backend, the settings and how to log.
-/

namespace ChatMemory

/-- What a store is to be made of. -/
structure StoreBuilder where
  /-- The key layout of an adapter in memory. It takes precedence over a database. -/
  adapter : Option Keyspace := none
  mongodbUri : Option String := none
  database : Option String := none
  /-- The text in front of all keys of a database. -/
  namespacePrefix : Option String := none
  config : StoreConfig := {}

namespace StoreBuilder

/-- Opens the store. -/
def build (b : StoreBuilder) : Except MemoryError Store := do
  b.config.validate
  match b.adapter with
  | some keys => return ⟨keys, b.config⟩
  | none =>
    if b.mongodbUri.isNone then throw (.config .noBackend)
    if b.database.isNone then throw (.config .noDatabase)
    throw (.config .databaseUnavailable)

end StoreBuilder

/-- A kind of backend. -/
inductive BackendKind where
  | memory
  | mongodb
deriving DecidableEq

namespace BackendKind

def ofJson : Decoder BackendKind := Decoder.choice [("memory", .memory), ("mongodb", .mongodb)]

end BackendKind

/-- Where a deployment keeps its records. -/
structure BackendSettings where
  kind : BackendKind
  database : String
  namespacePrefix : String
deriving DecidableEq

namespace BackendSettings

def record : Record BackendSettings :=
  Record.constructor mk
    |>.and (.required "kind" BackendKind.ofJson)
    |>.and (.optional "database" Decoder.text "")
    |>.and (.optional "namespace_prefix" Decoder.text "")

end BackendSettings

/-- How a deployment logs. -/
structure LogSettings where
  level : String
  format : String
deriving DecidableEq

namespace LogSettings

def record : Record LogSettings :=
  Record.constructor mk
    |>.and (.required "level" Decoder.text)
    |>.and (.required "format" Decoder.text)

end LogSettings

/-- A store as it is described by a document. -/
structure Deployment where
  backend : BackendSettings
  store : StoreConfig
  logging : LogSettings
  mongodbUri : String
deriving DecidableEq

namespace Deployment

def record : Record Deployment :=
  Record.constructor mk
    |>.and (.required "backend" BackendSettings.record.decode)
    |>.and (.optional "store" StoreConfig.ofJson {})
    |>.and (.required "logging" LogSettings.record.decode)
    |>.and (.optional "mongodb_uri" Decoder.text "")

def ofJson : Decoder Deployment := record.decode

/-- The builder of the described store. -/
def builder (d : Deployment) : StoreBuilder :=
  match d.backend.kind with
  | .memory => { adapter := some ⟨d.backend.namespacePrefix⟩, config := d.store }
  | .mongodb =>
    { mongodbUri := some d.mongodbUri
      database := some d.backend.database
      namespacePrefix := some d.backend.namespacePrefix
      config := d.store }

/-- Opens the described store. -/
def openStore (d : Deployment) : Except MemoryError Store := d.builder.build

end Deployment

end ChatMemory
