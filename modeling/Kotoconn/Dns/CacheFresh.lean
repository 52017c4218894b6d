import Kotoconn.Dns.Cache

/-! # Cached answers are neither stale nor over-lived -/

namespace Kotoconn.Dns
open Lib ResponseCache List Option

variable {env : DnsEnv}

/-! ## Lifetimes -/

/-- A negative response: the name does not exist, or there is no answer of the queried type. -/
def Negative {P : Parts} (response : Message P) : Prop :=
  response.metadata.responseCode = .nxDomain ∨ response.metadata.responseCode = .noError ∧
    ¬ ∃ record ∈ response.answers, ∃ query, response.queries.head? = some query ∧
      (record.recordType = query.queryType ∨ query.queryType = .any)

theorem negative_iff {P : Parts} {response : Message P} (h : ¬ excluded response) :
    Negative response ↔ positive response = false := by
  have hcode : response.metadata.responseCode = .noError ∨ response.metadata.responseCode = .nxDomain := by
    by_contra hno
    exact h (.inr (.inr (.inl (not_or.1 hno))))
  have hpositive : positive response = true ↔ response.metadata.responseCode = .noError ∧
      ∃ record ∈ response.answers, ∃ query, response.queries.head? = some query ∧
        (record.recordType = query.queryType ∨ query.queryType = .any) := by
    simp only [positive, decide_eq_true_eq, List.any_eq_true]
    refine and_congr_right fun _ => exists_congr fun record => and_congr_right fun _ => ?_
    cases response.queries.head? with
    | none => simp
    | some => simp
  rw [← Bool.not_eq_true, hpositive]
  rcases hcode with hcode | hcode
  · simp [Negative, hcode]
  · simp [Negative, hcode]

/-- The seconds that a response may live: positive, within the TTL of every record and within the negative TTL of a
negative response, and the greatest such number. -/
structure Lifetime (env : DnsEnv) (response : Message env.parts) (ttl : Nat) : Prop where
  pos : 0 < ttl
  records : ∀ record ∈ response.records, ttl ≤ record.ttl
  negative : Negative response → ∃ n, env.negativeTtl response = some n ∧ ttl ≤ n
  attained : (∃ record ∈ response.records, record.ttl = ttl) ∨
    Negative response ∧ env.negativeTtl response = some ttl

theorem lifetime_spec {response : Message env.parts} (hexcluded : ¬ excluded response) {ttl : Nat}
    (h : lifetime env response = some ttl) : Lifetime env response ttl := by
  -- the least TTL, as a statement about the records
  have hmin : ∀ least, (response.records.map Record.ttl).min? = some least →
      (∃ record ∈ response.records, record.ttl = least) ∧ ∀ record ∈ response.records, least ≤ record.ttl := by
    intro least hleast
    obtain ⟨hmem, hle⟩ := min?_eq_some_iff.1 hleast
    obtain ⟨record, hrecord, httl⟩ := List.mem_map.1 hmem
    exact ⟨⟨record, hrecord, httl⟩, fun r hr => hle _ (List.mem_map_of_mem hr)⟩
  obtain ⟨httl, hpos⟩ := filter_eq_some_iff.1 h
  have hpos : 0 < ttl := of_decide_eq_true hpos
  cases hp : positive response with
  | true =>
    rw [hp, if_pos rfl] at httl
    obtain ⟨hattained, hrecords⟩ := hmin ttl httl
    refine ⟨hpos, hrecords, fun hnegative => ?_, .inl hattained⟩
    rw [negative_iff hexcluded, hp] at hnegative
    cases hnegative
  | false =>
    rw [hp, if_neg Bool.false_ne_true] at httl
    have hnegative := (negative_iff hexcluded).2 hp
    obtain ⟨n, hn, rfl⟩ := map_eq_some_iff.1 httl
    cases hleast : (response.records.map Record.ttl).min? with
    | none =>
      simp only [hleast] at hpos ⊢
      have hnone : response.records = [] := map_eq_nil_iff.1 (min?_eq_none_iff.1 hleast)
      refine ⟨hpos, fun r hr => ?_, fun _ => ⟨n, hn, le_rfl⟩, .inr ⟨hnegative, hn⟩⟩
      rw [hnone] at hr
      cases hr
    | some least =>
      simp only [hleast] at hpos ⊢
      obtain ⟨⟨record, hrecord, hattained⟩, hrecords⟩ := hmin least hleast
      refine ⟨hpos, fun r hr => le_trans (min_le_left _ _) (hrecords r hr),
        fun _ => ⟨n, hn, min_le_right _ _⟩, ?_⟩
      rcases Nat.le_total least n with hle | hle
      · rw [min_eq_left hle]
        exact .inl ⟨record, hrecord, hattained⟩
      · rw [min_eq_right hle]
        exact .inr ⟨hnegative, hn⟩

/-! ## Entries -/

def Cached (i : Insertion env) (entry : Entry env) : Prop :=
  ¬ excluded i.response ∧ ∃ ttl, Lifetime env i.response ttl ∧ entry = ⟨stored i.response ttl, i.time, ttl * second⟩

def Sourced (history : List (Insertion env)) (cache : ResponseCache env) : Prop :=
  ∀ k entry, cache.lookup k = some entry → ∃ i ∈ history, i.key = k ∧ Cached i entry

variable {history : List (Insertion env)} {cache : ResponseCache env}

theorem Sourced.erase (h : Sourced history cache) (k : Bytes) : Sourced history (cache.erase k) := by
  intro k' entry hentry
  exact h k' entry (Table.lookup_erase_iff.1 hentry).2

theorem Sourced.get (h : Sourced history cache) (k : Bytes)
    (request : Message env.parts) (now : Nat) : Sourced history (cache.get k request now).2 := by
  unfold ResponseCache.get
  split
  · exact h
  · split_ifs
    · exact h.erase k
    · exact h

theorem Sourced.insert (h : Sourced history cache)
    (i : Insertion env) : Sourced (history ++ [i]) (cache.insert i.key i.response i.time) := by
  have hkept : Sourced (history ++ [i]) cache := by
    intro k entry hentry
    obtain ⟨j, hj, hrest⟩ := h k entry hentry
    exact ⟨j, mem_append_left _ hj, hrest⟩
  unfold ResponseCache.insert
  by_cases hexcluded : excluded i.response
  · rw [if_pos hexcluded]
    exact hkept
  · rw [if_neg hexcluded]
    cases httl : lifetime env i.response with
    | none => exact hkept
    | some ttl =>
      intro k entry hentry
      rcases Table.lookup_insert_iff.1 hentry with ⟨rfl, rfl⟩ | ⟨-, hentry⟩
      · exact ⟨i, mem_append_right _ mem_cons_self, rfl, hexcluded, ttl, lifetime_spec hexcluded httl, rfl⟩
      · exact hkept k entry hentry

theorem Sourced.reachable (h : Reachable env history cache) : Sourced history cache := by
  induction h with
  | new => exact fun _ _ hentry => by cases hentry
  | get k request now _ ih => exact ih.get k request now
  | insert i _ ih => exact ih.insert i
  | evict k _ ih => exact ih.erase k

/-! ## Answers -/

def SameData {P : Parts} (a b : Record P) : Prop := a.recordType = b.recordType ∧ a.data = b.data

/-- A record after some seconds: what was stored, with that much less to live, but not nothing, and with no more than
the upstream's record would have. -/
structure Aged {P : Parts} (seconds : Nat) (upstream kept got : Record P) : Prop where
  same : SameData got kept
  ttl : got.ttl = kept.ttl - seconds
  pos : 1 ≤ got.ttl
  le : got.ttl ≤ upstream.ttl - seconds

/-- What is stored of an authority record: the record, or a shorter lived `SOA` record of a negative response. -/
def Capped {P : Parts} (response : Message P) (ttl : Nat) (upstream kept : Record P) : Prop :=
  kept = upstream ∨ Negative response ∧ upstream.recordType = .soa ∧ SameData kept upstream ∧
    kept.ttl = min upstream.ttl ttl

/-- The answer to `request` made of `response`, which may live for `ttl` seconds and is `seconds` old. -/
structure Answers {P : Parts} (response : Message P) (ttl seconds : Nat) (request got : Message P) : Prop where
  metadata : got.metadata = { response.metadata with id := request.metadata.id }
  queries : got.queries = request.queries
  answers : List.Forall₂ (fun upstream record => Aged seconds upstream upstream record) response.answers got.answers
  authorities : List.Forall₂ (fun upstream record => ∃ kept, Capped response ttl upstream kept ∧
    Aged seconds upstream kept record) response.authorities got.authorities
  additionals : List.Forall₂ (fun upstream record => Aged seconds upstream upstream record)
    response.additionals got.additionals
  edns : got.edns = response.edns
  signature : got.signature = response.signature

/-- Ageing by less than the lifetime; the `u32` that counts the seconds does not overflow before a TTL ends. -/
theorem aged_age {P : Parts} {seconds ttl : Nat} {upstream kept : Record P} (hseconds : seconds < ttl)
    (hkept : ttl ≤ kept.ttl) (hle : kept.ttl ≤ upstream.ttl) :
    Aged seconds upstream kept (age (min seconds (2 ^ 32 - 1)) kept) := by
  have hlt := kept.ttl_lt
  rw [min_eq_left (by omega)]
  refine ⟨⟨rfl, rfl⟩, rfl, ?_, Nat.sub_le_sub_right hle _⟩
  change 1 ≤ kept.ttl - seconds
  omega

theorem forall_aged {P : Parts} {seconds ttl : Nat} {records : List (Record P)} (hseconds : seconds < ttl)
    (h : ∀ record ∈ records, ttl ≤ record.ttl) :
    List.Forall₂ (fun upstream record => Aged seconds upstream upstream record) records
      (records.map (age (min seconds (2 ^ 32 - 1)))) := by
  rw [forall₂_map_right_iff, forall₂_same]
  exact fun record hrecord => aged_age hseconds (h record hrecord) le_rfl

theorem answers_spec {response : Message env.parts} (request : Message env.parts) {ttl elapsed : Nat}
    (hexcluded : ¬ excluded response) (h : Lifetime env response ttl) (helapsed : elapsed < ttl * second) :
    Answers response ttl (elapsed / second) request (answer (stored response ttl) request elapsed) := by
  have hseconds : elapsed / second < ttl := (Nat.div_lt_iff_lt_mul (by decide)).2 helapsed
  have hanswers : ∀ record ∈ response.answers, ttl ≤ record.ttl := fun record hrecord =>
    h.records record (mem_append_left _ (mem_append_left _ hrecord))
  have hauthorities : ∀ record ∈ response.authorities, ttl ≤ record.ttl := fun record hrecord =>
    h.records record (mem_append_left _ (mem_append_right _ hrecord))
  have hadditionals : ∀ record ∈ response.additionals, ttl ≤ record.ttl := fun record hrecord =>
    h.records record (mem_append_right _ hrecord)
  cases hp : positive response with
  | true =>
    simp only [stored, hp, if_true, answer]
    refine ⟨rfl, rfl, forall_aged hseconds hanswers, ?_, forall_aged hseconds hadditionals, rfl, rfl⟩
    exact (forall_aged hseconds hauthorities).imp fun upstream record haged => ⟨upstream, .inl rfl, haged⟩
  | false =>
    have hnegative := (negative_iff hexcluded).2 hp
    simp only [stored, hp, Bool.false_eq_true, if_false, answer]
    refine ⟨rfl, rfl, forall_aged hseconds hanswers, ?_, forall_aged hseconds hadditionals, rfl, rfl⟩
    simp only [forall₂_map_right_iff, forall₂_same]
    intro record hrecord
    have hle := hauthorities record hrecord
    by_cases hsoa : record.recordType = .soa
    · rw [if_pos hsoa]
      refine ⟨cap ttl record, .inr ⟨hnegative, hsoa, ⟨rfl, rfl⟩, rfl⟩, aged_age hseconds ?_ (min_le_left _ _)⟩
      exact Nat.le_min.2 ⟨hle, le_rfl⟩
    · rw [if_neg hsoa]
      exact ⟨record, .inl rfl, aged_age hseconds hle le_rfl⟩

/-! ## The cache -/

theorem fromMessage_eq {m m' : Message env.parts} (h : fromMessage m = some m') : m' = m := by
  obtain ⟨_, _, rfl⟩ := map_eq_some_iff.1 h
  rfl

theorem key_setId (request : Message env.parts) (id : Nat) : key env (request.setId id) = key env request := rfl

def Faithful (env : DnsEnv) : Prop := ∀ m m' bytes, env.toVec m = some bytes → env.toVec m' = some bytes → m = m'

theorem key_eq_some {request : Message env.parts} {k : Bytes} (h : key env request = some k) :
    env.toVec (request.setId 0) = some k := by
  unfold key at h
  split_ifs at h
  exact h

theorem key_same {a b : Message env.parts} {k : Bytes} (hfaithful : Faithful env) (ha : key env a = some k)
    (hb : key env b = some k) : a.setId 0 = b.setId 0 :=
  hfaithful _ _ k (key_eq_some ha) (key_eq_some hb)

/-- **A cached answer is neither stale nor over-lived.** After any insertions and gets, at any times, an answer of `get`
was inserted under its key as a response that may be cached, less than its lifetime ago; it carries the request's id
and question, and every record has the whole seconds since then less to live, which is at least one second. Requests
with the same key are the same but for their ids. -/
theorem cached_answer_fresh (h : Reachable env history cache) {k : Bytes} {request got : Message env.parts} {now : Nat}
    (hget : (cache.get k request now).1 = some got) :
    (∃ i ∈ history, i.key = k ∧ ¬ excluded i.response ∧ ∃ ttl, Lifetime env i.response ttl ∧
      now - i.time < ttl * second ∧ Answers i.response ttl ((now - i.time) / second) request got) ∧
    (∀ id, key env (request.setId id) = key env request) ∧
    (Faithful env → ∀ other, key env other = some k → key env request = some k → other.setId 0 = request.setId 0) := by
  refine ⟨?_, key_setId request, fun hfaithful other => key_same hfaithful⟩
  unfold ResponseCache.get at hget
  cases hentry : cache.lookup k with
  | none =>
    rw [hentry] at hget
    cases hget
  | some entry =>
    simp only [hentry] at hget
    obtain ⟨i, hi, hkey, hexcluded, ttl, hlifetime, rfl⟩ := Sourced.reachable h k entry hentry
    split_ifs at hget with hexpired
    rw [fromMessage_eq hget]
    exact ⟨i, hi, hkey, hexcluded, ttl, hlifetime, not_le.1 hexpired,
      answers_spec request hexcluded hlifetime (not_le.1 hexpired)⟩

/-! ## An answer -/

def plainEnv : DnsEnv where
  parts := ⟨Unit, Unit, Unit, Unit, Unit, Unit⟩
  negativeTtl _ := none
  toVec m := some [UInt8.ofNat m.metadata.id]
  sameQueries _ _ := true

def address (ttl : Nat) (h : ttl < 2 ^ 32) : Record plainEnv.parts := ⟨ttl, .other 1, (), h⟩

def question (id : Nat) : Message plainEnv.parts where
  metadata := ⟨id, false, .query, false, .noError, ()⟩
  queries := [⟨.other 1, ()⟩]
  answers := []
  authorities := []
  additionals := []
  edns := none
  signature := none

def reply (id : Nat) (answers : List (Record plainEnv.parts)) : Message plainEnv.parts :=
  { question id with answers := answers }

theorem cached_answer_fresh_aged : ∃ got, (((∅ : ResponseCache plainEnv).insert [0]
      (reply 1 [address 2 (by decide), address 60 (by decide)]) 0).get [0] (question 42) (3 * second / 2)).1 =
        some got ∧ got.answers = [address 1 (by decide), address 59 (by decide)] ∧ got.metadata.id = 42 ∧
    ∃ i ∈ [(⟨[0], reply 1 [address 2 (by decide), address 60 (by decide)], 0⟩ : Insertion plainEnv)],
      i.key = [0] ∧ ∃ ttl, Lifetime plainEnv i.response ttl ∧ 3 * second / 2 - i.time < ttl * second := by
  have hreach : Reachable plainEnv [⟨[0], reply 1 [address 2 (by decide), address 60 (by decide)], 0⟩]
      ((∅ : ResponseCache plainEnv).insert [0] (reply 1 [address 2 (by decide), address 60 (by decide)]) 0) :=
    .insert ⟨[0], _, 0⟩ .new
  have hget : (((∅ : ResponseCache plainEnv).insert [0]
      (reply 1 [address 2 (by decide), address 60 (by decide)]) 0).get [0] (question 42) (3 * second / 2)).1 =
      some (reply 42 [address 1 (by decide), address 59 (by decide)]) := rfl
  obtain ⟨⟨i, hi, hkey, -, ttl, hlifetime, hfresh, -⟩, -⟩ := cached_answer_fresh hreach hget
  exact ⟨_, hget, rfl, rfl, i, hi, hkey, ttl, hlifetime, hfresh⟩

/-! ## Concurrent queries -/

/-- Queries on one cache: each looks into it and later keeps what its exchange ended with. Others overtake it. -/
inductive Served (env : DnsEnv) : List (Exchange env) → ResponseCache env → Prop
  | new : Served env [] ∅
  | cached {xs cache} (request : Message env.parts) (asked : Nat) (h : Served env xs cache) :
      Served env xs (Service.cached cache request asked).2
  | keep {xs cache} (x : Exchange env) (h : Served env xs cache) : Served env (x :: xs) (Service.keep cache x).2
  | evict {xs cache} (k : Bytes) (h : Served env xs cache) : Served env xs (cache.erase k)

variable {xs : List (Exchange env)}

def Exchange.Keeps (x : Exchange env) (i : Insertion env) : Prop :=
  x.Matches ∧ key env x.request = some i.key ∧ i.time = x.answered ∧ i.response = x.response

theorem keep_spec (cache : ResponseCache env) (x : Exchange env) :
    (∀ got, (Service.keep cache x).1 = some got → x.Matches ∧ got = x.response) ∧
    ((Service.keep cache x).2 = cache ∨
      ∃ i, x.Keeps i ∧ (Service.keep cache x).2 = cache.insert i.key i.response i.time) := by
  unfold Service.keep
  by_cases hmatches : x.Matches
  · rw [if_pos hmatches]
    cases hresponse : fromMessage x.response with
    | none => exact ⟨by simp, .inl rfl⟩
    | some response =>
      obtain rfl := fromMessage_eq hresponse
      cases hkey : key env x.request with
      | none => exact ⟨fun _ h => ⟨hmatches, (some.inj h).symm⟩, .inl rfl⟩
      | some k =>
        exact ⟨fun _ h => ⟨hmatches, (some.inj h).symm⟩, .inr ⟨⟨k, _, _⟩, ⟨hmatches, hkey, rfl, rfl⟩, rfl⟩⟩
  · rw [if_neg hmatches]
    exact ⟨by simp, .inl rfl⟩

theorem Served.sourced (h : Served env xs cache) :
    ∃ history, Sourced history cache ∧ ∀ i ∈ history, ∃ x ∈ xs, x.Keeps i := by
  induction h with
  | new => exact ⟨[], .reachable .new, forall_mem_nil _⟩
  | cached request asked _ ih =>
    obtain ⟨history, hsourced, hkeeps⟩ := ih
    refine ⟨history, ?_, hkeeps⟩
    unfold Service.cached
    split
    · exact hsourced
    · exact hsourced.get _ _ _
  | @keep xs cache x _ ih =>
    obtain ⟨history, hsourced, hkeeps⟩ := ih
    have hmore : ∀ i ∈ history, ∃ y ∈ x :: xs, y.Keeps i := fun i hi =>
      (hkeeps i hi).imp fun _ hy => ⟨mem_cons_of_mem _ hy.1, hy.2⟩
    rcases (keep_spec cache x).2 with heq | ⟨i, hi, heq⟩
    · exact ⟨history, by rwa [heq], hmore⟩
    · refine ⟨history ++ [i], by rw [heq]; exact hsourced.insert i, forall_mem_append.2 ⟨hmore, ?_⟩⟩
      rw [forall_mem_singleton]
      exact ⟨x, mem_cons_self, hi⟩
  | evict k _ ih => exact ih.imp fun _ h => ⟨h.1.erase k, h.2⟩

theorem cached_spec (h : Sourced history cache) {request got : Message env.parts} {asked : Nat}
    (hgot : (Service.cached cache request asked).1 = some got) :
    ∃ i ∈ history, key env request = some i.key ∧ ¬ excluded i.response ∧ ∃ ttl, Lifetime env i.response ttl ∧
      asked - i.time < ttl * second ∧ Answers i.response ttl ((asked - i.time) / second) request got := by
  unfold Service.cached at hgot
  cases hkey : key env request with
  | none => simp [hkey] at hgot
  | some k =>
    simp only [hkey, ResponseCache.get] at hgot
    cases hentry : cache.lookup k with
    | none => simp [hentry] at hgot
    | some entry =>
      obtain ⟨i, hi, rfl, hexcluded, ttl, hlifetime, rfl⟩ := h k entry hentry
      simp only [hentry] at hgot
      split_ifs at hgot with hexpired
      have hfresh := not_le.1 hexpired
      rw [fromMessage_eq hgot]
      exact ⟨i, hi, rfl, hexcluded, ttl, hlifetime, hfresh, answers_spec request hexcluded hlifetime hfresh⟩

/-- **Every answer is to the question asked.** After any queries, overtaking each other, an answer has the id and the
question of its request. It is what the upstream answered to it, or is kept of an exchange for the same request but for
the id: less than its lifetime ago, with as many seconds less to live in every record. -/
theorem served_answer_matches (h : Served env xs cache) {x : Exchange env} {got : Message env.parts} {asked : Nat}
    (hgot : (Service.query cache x asked).1 = some got) :
    got.metadata.id = x.request.metadata.id ∧ got.queries = x.request.queries ∧
    (x.Matches ∧ got = x.response ∨ ∃ y ∈ xs, y.Matches ∧ key env y.request = key env x.request ∧
      (Faithful env → y.request.setId 0 = x.request.setId 0) ∧ ¬ excluded y.response ∧
      ∃ ttl, Lifetime env y.response ttl ∧ asked - y.answered < ttl * second ∧
        Answers y.response ttl ((asked - y.answered) / second) x.request got) := by
  unfold Service.query at hgot
  split_ifs at hgot
  cases hcached : Service.cached cache x.request asked with
  | mk found later =>
    rw [hcached] at hgot
    cases found with
    | none =>
      obtain ⟨hmatches, rfl⟩ := (keep_spec later x).1 got hgot
      exact ⟨rfl, rfl, .inl ⟨hmatches, rfl⟩⟩
    | some response =>
      obtain rfl := some.inj hgot
      obtain ⟨history, hsourced, hkeeps⟩ := h.sourced
      obtain ⟨i, hi, hkey, hexcluded, ttl, hlifetime, hfresh, hanswers⟩ := cached_spec hsourced (by rw [hcached])
      obtain ⟨y, hy, hmatches, hykey, htime, hresponse⟩ := hkeeps i hi
      rw [hresponse] at hexcluded hlifetime hanswers
      rw [htime] at hfresh hanswers
      exact ⟨by rw [hanswers.metadata], hanswers.queries, .inr ⟨y, hy, hmatches, hykey.trans hkey.symm,
        fun hfaithful => key_same hfaithful hykey hkey, hexcluded, ttl, hlifetime, hfresh, hanswers⟩⟩

def lookedUp : Exchange plainEnv where
  request := question 1
  upstream := { reply 9 [address 60 (by decide)] with metadata := ⟨9, true, .query, false, .noError, ()⟩ }
  answered := 0

theorem served_answer_matches_again : ∃ got, (Service.query (Service.keep ∅ lookedUp).2 ⟨question 42, question 0, 0⟩
      second).1 = some got ∧ got.answers = [address 59 (by decide)] ∧ got.metadata.id = 42 := by
  have hgot : (Service.query (Service.keep ∅ lookedUp).2 ⟨question 42, question 0, 0⟩ second).1 =
      some { lookedUp.upstream.setId 42 with answers := [address 59 (by decide)] } := rfl
  exact ⟨_, hgot, rfl, (served_answer_matches (.keep lookedUp .new) hgot).1⟩

end Kotoconn.Dns
