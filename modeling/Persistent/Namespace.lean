import Persistent.Value.Equality

/-!
Namespaces: named tables of bindings and of aliases. A handle names a namespace and shares its
tables with every clone of the handle. Tables are persistent maps, so a snapshot of the bindings
stays as it was taken.
-/

set_option autoImplicit false

namespace Persistent

variable [Hasher]

namespace Namespace

abbrev Mappings : Type := Map Metadata (Symbol Metadata) Value

abbrev Aliases : Type := Map Metadata (Symbol Metadata) (Symbol Metadata)

structure Tables where
  mappings : Mappings := {}
  aliases : Aliases := {}

structure Handle where
  name : Symbol Metadata
  tables : Nat

/-- All handles, the tables they share, and the snapshots taken. -/
structure Registry where
  handles : Array Handle := #[]
  tables : Array Tables := #[]
  snapshots : Array Mappings := #[]

inductive Step where
  | new (name : Symbol Metadata)
  | clone (handle : Nat)
  | intern (handle : Nat) (symbol : Symbol Metadata) (value : Value)
  | unmap (handle : Nat) (symbol : Symbol Metadata)
  | addAlias (handle : Nat) (name target : Symbol Metadata)
  | find (handle : Nat) (symbol : Symbol Metadata)
  | resolveAlias (handle : Nat) (name : Symbol Metadata)
  | name (handle : Nat)
  | mappings (handle : Nat)
  | aliases (handle : Nat)
  | snapshot (handle : Nat)
  | showSnapshot (snapshot : Nat)

inductive Answer where
  /-- The number of a new handle or snapshot. -/
  | number (n : Nat)
  | value (v : Option Value)
  | symbol (s : Option (Symbol Metadata))
  | name (s : Symbol Metadata)
  | mappings (m : Mappings)
  | aliases (m : Aliases)
  /-- There is no such handle or snapshot. -/
  | unknown

namespace Registry

def tablesOf? (r : Registry) (handle : Nat) : Option Tables :=
  r.handles[handle]?.bind fun h => r.tables[h.tables]?

/-- Changes the tables that a handle shares. -/
def update (r : Registry) (handle : Nat) (change : Tables → Tables) : Registry :=
  match r.handles[handle]? with
  | none => r
  | some h => { r with tables := r.tables.modify h.tables change }

/-- The answer that a handle's tables give. -/
def ask (r : Registry) (handle : Nat) (answer : Tables → Answer) : Answer :=
  match r.tablesOf? handle with
  | none => .unknown
  | some tables => answer tables

def askMappings (r : Registry) (handle : Nat) : Answer :=
  r.ask handle fun tables => .mappings tables.mappings

def askAliases (r : Registry) (handle : Nat) : Answer :=
  r.ask handle fun tables => .aliases tables.aliases

def step (r : Registry) : Step → Answer × Registry
  | .new name =>
    (.number r.handles.size,
      { r with
        handles := r.handles.push { name, tables := r.tables.size }
        tables := r.tables.push {} })
  | .clone handle =>
    match r.handles[handle]? with
    | none => (.unknown, r)
    | some h => (.number r.handles.size, { r with handles := r.handles.push h })
  | .intern handle symbol value =>
    let r := r.update handle fun tables =>
      { tables with mappings := tables.mappings.insert symbol value }
    (r.askMappings handle, r)
  | .unmap handle symbol =>
    let r := r.update handle fun tables => { tables with mappings := tables.mappings.erase symbol }
    (r.askMappings handle, r)
  | .addAlias handle name target =>
    let r := r.update handle fun tables =>
      { tables with aliases := tables.aliases.insert name target }
    (r.askAliases handle, r)
  | .find handle symbol => (r.ask handle fun tables => .value (tables.mappings.get? symbol), r)
  | .resolveAlias handle name => (r.ask handle fun tables => .symbol (tables.aliases.get? name), r)
  | .name handle =>
    match r.handles[handle]? with
    | none => (.unknown, r)
    | some h => (.name h.name, r)
  | .mappings handle => (r.askMappings handle, r)
  | .aliases handle => (r.askAliases handle, r)
  | .snapshot handle =>
    match r.tablesOf? handle with
    | none => (.unknown, r)
    | some tables =>
      (.number r.snapshots.size, { r with snapshots := r.snapshots.push tables.mappings })
  | .showSnapshot snapshot =>
    match r.snapshots[snapshot]? with
    | none => (.unknown, r)
    | some mappings => (.mappings mappings, r)

/-- The answers to a run of steps, and the registry after it. -/
def run (r : Registry) : List Step → List Answer × Registry
  | [] => ([], r)
  | step :: steps =>
    let (answer, r) := r.step step
    let (answers, r) := r.run steps
    (answer :: answers, r)

end Registry

end Namespace

end Persistent
