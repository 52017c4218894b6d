import Kotoconn.Lib.Bytes
import Kotoconn.Lib.Table

/-!
# `dns/cache.rs`: the response cache of a DNS service

`key`, `get`, `insert`: the methods of `ResponseCache` on the entries that the map under it holds. The map returns the
latest value of a key, or nothing: it may drop any entry at any time (`Step.evict`).

Times are nanoseconds, TTLs seconds.
-/

namespace Kotoconn.Dns
open Lib

def second : Nat := 1000000000

inductive RecordType where
  | soa
  | any
  | axfr
  | ixfr
  | other (code : Nat)
  deriving DecidableEq

inductive OpCode where
  | query
  | other (code : Nat)
  deriving DecidableEq

inductive ResponseCode where
  | noError
  | nxDomain
  | other (code : Nat)
  deriving DecidableEq

structure Parts where
  Header : Type
  Name : Type
  Data : Type
  EdnsSettings : Type
  EdnsOption : Type
  Signature : Type

variable {P : Parts}

structure Metadata (P : Parts) where
  id : Nat
  isResponse : Bool
  opCode : OpCode
  truncation : Bool
  responseCode : ResponseCode
  other : P.Header

structure Query (P : Parts) where
  queryType : RecordType
  name : P.Name

/-- A record; its TTL is a `u32`. -/
structure Record (P : Parts) where
  ttl : Nat
  recordType : RecordType
  data : P.Data
  ttl_lt : ttl < 2 ^ 32

def Record.lower (record : Record P) (ttl : Nat) (h : ttl ≤ record.ttl) : Record P :=
  { record with ttl := ttl, ttl_lt := lt_of_le_of_lt h record.ttl_lt }

structure Edns (P : Parts) where
  options : List P.EdnsOption
  settings : P.EdnsSettings

structure Message (P : Parts) where
  metadata : Metadata P
  queries : List (Query P)
  answers : List (Record P)
  authorities : List (Record P)
  additionals : List (Record P)
  edns : Option (Edns P)
  signature : Option P.Signature

namespace Message

def records (m : Message P) : List (Record P) := m.answers ++ m.authorities ++ m.additionals

/-- `edns.is_some_and(|edns| !edns.options().as_ref().is_empty())` -/
def hasOptions (m : Message P) : Bool :=
  match m.edns with
  | none => false
  | some edns => !edns.options.isEmpty

def setId (m : Message P) (id : Nat) : Message P := { m with metadata := { m.metadata with id := id } }

end Message

structure DnsEnv where
  parts : Parts
  /-- `DnsResponse::negative_ttl` -/
  negativeTtl : Message parts → Option Nat
  /-- `Message::to_vec`, also the encoding in `DnsResponse::from_message` -/
  toVec : Message parts → Option Bytes
  sameQueries : List (Query parts) → List (Query parts) → Bool

variable {env : DnsEnv}

structure Entry (env : DnsEnv) where
  message : Message env.parts
  inserted : Nat
  ttl : Nat

abbrev ResponseCache (env : DnsEnv) := Table Bytes (Entry env)

def key (env : DnsEnv) (request : Message env.parts) : Option Bytes :=
  if request.signature.isSome ∨ request.additionals ≠ [] ∨ request.hasOptions = true then none
  else env.toVec (request.setId 0)

namespace ResponseCache

def fromMessage (m : Message env.parts) : Option (Message env.parts) := (env.toVec m).map fun _ => m

def age (seconds : Nat) (record : Record P) : Record P := record.lower (record.ttl - seconds) (Nat.sub_le _ _)

/-- A record that lives no longer than `ttl`. -/
def cap (ttl : Nat) (record : Record P) : Record P := record.lower (min record.ttl ttl) (min_le_left _ _)

/-- The cached message as the answer to `request`, `elapsed` after it was stored. -/
def answer (message request : Message P) (elapsed : Nat) : Message P :=
  let seconds := min (elapsed / second) (2 ^ 32 - 1)
  { message with
    metadata := { message.metadata with id := request.metadata.id }
    queries := request.queries
    answers := message.answers.map (age seconds)
    authorities := message.authorities.map (age seconds)
    additionals := message.additionals.map (age seconds) }

def get (cache : ResponseCache env) (k : Bytes) (request : Message env.parts) (now : Nat) :
    Option (Message env.parts) × ResponseCache env :=
  match cache.lookup k with
  | none => (none, cache)
  | some entry =>
    if entry.ttl ≤ now - entry.inserted then (none, cache.erase k)
    else (fromMessage (answer entry.message request (now - entry.inserted)), cache)

def excluded (response : Message P) : Prop :=
  response.metadata.truncation = true ∨ response.signature.isSome ∨
    (response.metadata.responseCode ≠ .noError ∧ response.metadata.responseCode ≠ .nxDomain) ∨
    response.hasOptions = true

instance (response : Message P) : Decidable (excluded response) := by
  unfold excluded
  infer_instance

def positive (response : Message P) : Bool :=
  let queryType := response.queries.head?.map Query.queryType
  response.metadata.responseCode = .noError ∧
    response.answers.any fun record => some record.recordType = queryType ∨ queryType = some .any

def lifetime (env : DnsEnv) (response : Message env.parts) : Option Nat :=
  let recordsTtl := (response.records.map Record.ttl).min?
  let ttl := if positive response then recordsTtl
    else (env.negativeTtl response).map fun ttl =>
      match recordsTtl with
      | none => ttl
      | some records => min records ttl
  ttl.filter fun ttl => 0 < ttl

/-- The message to keep: the `SOA` records of a negative one live no longer than it. -/
def stored (response : Message P) (ttl : Nat) : Message P :=
  if positive response then response
  else { response with authorities := response.authorities.map fun record =>
    if record.recordType = .soa then cap ttl record else record }

def insert (cache : ResponseCache env) (k : Bytes) (response : Message env.parts) (now : Nat) : ResponseCache env :=
  if excluded response then cache
  else
    match lifetime env response with
    | none => cache
    | some ttl => AList.insert k ⟨stored response ttl, now, ttl * second⟩ cache

end ResponseCache

/-! ## The service -/

/-- The requests that a service answers: one ordinary question, not authenticated and no zone transfer. -/
def Service.accepts (request : Message P) : Bool :=
  match request.queries with
  | [query] =>
    !request.metadata.isResponse && request.metadata.opCode = .query && request.signature.isNone &&
      query.queryType ≠ .axfr && query.queryType ≠ .ixfr
  | _ => false

/-- A request and what its exchange with the upstream ended with, over TCP when the first answer was truncated. -/
structure Exchange (env : DnsEnv) where
  request : Message env.parts
  upstream : Message env.parts
  answered : Nat

/-- The check that the upstream answered this question. -/
def Exchange.Matches (x : Exchange env) : Prop :=
  x.upstream.metadata.isResponse = true ∧ env.sameQueries x.upstream.queries x.request.queries = true

instance (x : Exchange env) : Decidable x.Matches := by
  unfold Exchange.Matches
  infer_instance

def Exchange.response (x : Exchange env) : Message env.parts :=
  { x.upstream.setId x.request.metadata.id with queries := x.request.queries }

def Service.cached (cache : ResponseCache env) (request : Message env.parts) (asked : Nat) :
    Option (Message env.parts) × ResponseCache env :=
  match key env request with
  | none => (none, cache)
  | some k => cache.get k request asked

def Service.keep (cache : ResponseCache env) (x : Exchange env) : Option (Message env.parts) × ResponseCache env :=
  if x.Matches then
    match ResponseCache.fromMessage x.response with
    | none => (none, cache)
    | some response =>
      match key env x.request with
      | none => (some response, cache)
      | some k => (some response, cache.insert k response x.answered)
  else (none, cache)

/-- `Service::query`: the cached answer at `asked`, or the upstream's, which is kept. -/
def Service.query (cache : ResponseCache env) (x : Exchange env) (asked : Nat) :
    Option (Message env.parts) × ResponseCache env :=
  if Service.accepts x.request then
    match Service.cached cache x.request asked with
    | (some response, cache) => (some response, cache)
    | (none, cache) => Service.keep cache x
  else (none, cache)

/-! ## Runs -/

/-- One call of `insert`. -/
structure Insertion (env : DnsEnv) where
  key : Bytes
  response : Message env.parts
  time : Nat

inductive Reachable (env : DnsEnv) : List (Insertion env) → ResponseCache env → Prop
  | new : Reachable env [] ∅
  | get {history : List (Insertion env)} {cache : ResponseCache env} (k : Bytes) (request : Message env.parts)
      (now : Nat) : Reachable env history cache → Reachable env history (cache.get k request now).2
  | insert {history : List (Insertion env)} {cache : ResponseCache env} (i : Insertion env) :
      Reachable env history cache → Reachable env (history ++ [i]) (cache.insert i.key i.response i.time)
  | evict {history : List (Insertion env)} {cache : ResponseCache env} (k : Bytes) :
      Reachable env history cache → Reachable env history (cache.erase k)

end Kotoconn.Dns
