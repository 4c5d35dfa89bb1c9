/-
  MLocust.Locustfile.Host

  The host parameter.

  A Locust file gets all its settings in the host parameter: the connection string,
  the database and the collection, the model where there is one, and the batch size,
  with bars between them.  `__init__` of each of the four files takes the host apart
  and connects.

  The settings of a user are those that its host was written from: a host is
  accepted if and only if its parts are accepted, and parts that are left over do
  not matter (`hosts_accepted_iff`).  The exceptions of a user go to the cluster it
  loads.
-/
import MLocust.Lib.IntText
import MLocust.Locustfile.Bulkinsert

namespace MLocust.Locustfile

open Lib Faker

-- ============================================================================
-- int
-- ============================================================================

/-- The zeros of the decimal digits of Unicode 13. -/
def decimalZeros : List Nat :=
  [0x30, 0x660, 0x6f0, 0x7c0, 0x966, 0x9e6, 0xa66, 0xae6, 0xb66, 0xbe6, 0xc66, 0xce6, 0xd66, 0xde6,
    0xe50, 0xed0, 0xf20, 0x1040, 0x1090, 0x17e0, 0x1810, 0x1946, 0x19d0, 0x1a80, 0x1a90, 0x1b50,
    0x1bb0, 0x1c40, 0x1c50, 0xa620, 0xa8d0, 0xa900, 0xa9d0, 0xa9f0, 0xaa50, 0xabf0, 0xff10,
    0x104a0, 0x10d30, 0x11066, 0x110f0, 0x11136, 0x111d0, 0x112f0, 0x11450, 0x114d0, 0x11650,
    0x116c0, 0x11730, 0x118e0, 0x11950, 0x11c50, 0x11d50, 0x11da0, 0x16a60, 0x16b50, 0x1d7ce,
    0x1d7d8, 0x1d7e2, 0x1d7ec, 0x1d7f6, 0x1e140, 0x1e2f0, 0x1e950, 0x1fbf0]

/-- The value of a decimal digit. -/
def decimalValue (n : Nat) : Option Nat :=
  (decimalZeros.find? fun z => z ≤ n ∧ n < z + 10).map (n - ·)

/-- What `int` skips: white space, but not the four separators of ASCII. -/
def isIntSpace (c : Char) : Bool :=
  PyStr.isSpace c && !(0x1c ≤ c.toNat && c.toNat ≤ 0x1f)

theorem decimalValue_eq_some {n d : Nat} (h : decimalValue n = some d) :
    ∃ z ∈ decimalZeros, d < 10 ∧ n = z + d := by
  obtain ⟨z, hfind, rfl⟩ := Option.map_eq_some_iff.mp h
  have hrange := List.find?_some hfind
  have hle : z ≤ n ∧ n < z + 10 := by simpa using hrange
  exact ⟨z, List.mem_of_find?_eq_some hfind, by omega, by omega⟩

/-- The characters of `int`. -/
def pyAlphabet : Alphabet where
  space := isIntSpace
  digit? := fun c => decimalValue c.toNat
  not_space := by
    intro c hc
    have hsign : c = '+' ∨ c = '-' ∨ c = '_' := by simpa using hc
    rcases hsign with rfl | rfl | rfl <;> rfl
  not_digit := by
    intro c hc
    have hsign : c = '+' ∨ c = '-' ∨ c = '_' := by simpa using hc
    rcases hsign with rfl | rfl | rfl <;> rfl
  not_space_digit := by
    intro c d h
    obtain ⟨z, hz, hd, hn⟩ := decimalValue_eq_some h
    have hall : ∀ z ∈ decimalZeros, ∀ d < 10, ¬ ((0x09 ≤ z + d ∧ z + d ≤ 0x0d) ∨
        (0x1c ≤ z + d ∧ z + d ≤ 0x20) ∨ z + d = 0x85 ∨ z + d = 0xa0 ∨
        z + d = 0x1680 ∨ (0x2000 ≤ z + d ∧ z + d ≤ 0x200a) ∨ z + d = 0x2028 ∨
        z + d = 0x2029 ∨ z + d = 0x202f ∨ z + d = 0x205f ∨ z + d = 0x3000) := by
      decide
    have hno := hall z hz d hd
    rw [← hn] at hno
    have hspace : PyStr.isSpace c = false := by
      simp only [PyStr.isSpace]
      simp
      omega
    rw [isIntSpace, hspace]
    rfl
  digitChar := by decide

/-- `int(s)` -/
def pyInt (s : PyStr) : Option Int := pyAlphabet.readInt s

-- ============================================================================
-- __init__
-- ============================================================================

/-- What `__init__` raises. -/
inductive InitErr where
  | indexError
  | valueError
  | outside (e : Exc)
deriving DecidableEq

/-- What `pymongo` and `mimesis` raise when a user is made. -/
structure Outside where
  /-- `pymongo.MongoClient(srv)` -/
  client : PyStr → Option Exc
  /-- `self.client[name]` -/
  database : PyStr → Option Exc
  /-- `db[name]` -/
  collection : PyStr → Option Exc
  /-- `schema.create(iterations=n)` -/
  schema : Int → Option Exc

/-- Something outside is called. -/
def call (raised : Option Exc) : Except InitErr Unit :=
  match raised with
  | none => .ok ()
  | some e => .error (.outside e)

/-- `vars[i]` -/
def field (vars : List PyStr) (i : Nat) : Except InitErr PyStr :=
  match vars[i]? with
  | some s => .ok s
  | none => .error .indexError

/-- `int(vars[i])` -/
def intField (vars : List PyStr) (i : Nat) : Except InitErr Int := do
  let s ← field vars i
  match pyInt s with
  | some n => .ok n
  | none => .error .valueError

/-- The `audit` attribute of the class.  No instance assigns it. -/
def classAudit : Option PyStr := none

/-- Where a user loads to, and the cluster whose collection `mlocust.audit` gets its exceptions. -/
structure Target where
  srv : PyStr
  db : PyStr
  coll : PyStr
  audit : PyStr
deriving DecidableEq

/-- A user of `locustfile-faker.py`, and of the other two loaders, which have no model. -/
structure Settings where
  target : Target
  model : PyStr
  bulkSize : Int
deriving DecidableEq

variable (out : Outside)

/-- The connection string, the database and the collection. -/
def connect (vars : List PyStr) : Except InitErr (PyStr × PyStr × PyStr) := do
  let srv ← field vars 0
  call (out.client srv)
  let db ← field vars 1
  call (out.database db)
  let coll ← field vars 2
  call (out.collection coll)
  pure (srv, db, coll)

/-- `if (self.audit is None): self.audit = self.client.mlocust.audit` -/
def withAudit (t : PyStr × PyStr × PyStr) : Target :=
  ⟨t.1, t.2.1, t.2.2, classAudit.getD t.1⟩

/-- `__init__` of `locustfile.py` -/
def initQuery (host : PyStr) : Except InitErr Target := do
  let vars := host.splitOn '|'
  let t ← connect out vars
  pure (withAudit t)

/-- `__init__` of `locustfile-faker.py` -/
def initFaker (host : PyStr) : Except InitErr Settings := do
  let vars := host.splitOn '|'
  let t ← connect out vars
  let model ← field vars 3
  let bulkSize ← intField vars 4
  pure ⟨withAudit t, model, bulkSize⟩

/-- `__init__` of `locustfile-faker-custom.py` -/
def initFakerCustom (host : PyStr) : Except InitErr (Target × Int) := do
  let vars := host.splitOn '|'
  let t ← connect out vars
  let bulkSize ← intField vars 3
  pure (withAudit t, bulkSize)

/-- `__init__` of `locustfile-mimesis.py` -/
def initMimesis (host : PyStr) : Except InitErr (Target × Int) := do
  let vars := host.splitOn '|'
  let t ← connect out vars
  let bulkSize ← intField vars 3
  call (out.schema bulkSize)
  pure (withAudit t, bulkSize)

-- ============================================================================
-- The parts of a host
-- ============================================================================

/-- The host with the given parts. -/
def hostOf (parts : List PyStr) : PyStr := ['|'].intercalate parts

/-- A host has the parts it was written from, and no others. -/
theorem splitOn_eq_iff {host : PyStr} {parts : List PyStr} (hne : parts ≠ []) :
    host.splitOn '|' = parts ↔ host = hostOf parts ∧ ∀ part ∈ parts, '|' ∉ part := by
  constructor
  · rintro rfl
    exact ⟨(List.intercalate_splitOn '|').symm, fun part hpart => not_mem_of_mem_splitOn hpart⟩
  · rintro ⟨rfl, hparts⟩
    exact List.splitOn_intercalate '|' hparts hne

/-- The host is written from these parts. -/
def Written (host : PyStr) (parts : List PyStr) : Prop :=
  host = hostOf parts ∧ ∀ part ∈ parts, '|' ∉ part

-- ============================================================================
-- What is accepted
-- ============================================================================

variable {out : Outside} {vars : List PyStr} {host : PyStr}

/-- The cluster is there, and its exceptions go to itself. -/
structure Accepts (out : Outside) (t : Target) : Prop where
  client : out.client t.srv = none
  database : out.database t.db = none
  collection : out.collection t.coll = none
  audit : t.audit = t.srv

theorem call_eq_ok {raised : Option Exc} {u : Unit} : call raised = .ok u ↔ raised = none := by
  cases raised with
  | none => exact iff_of_true rfl rfl
  | some e => exact iff_of_false (fun h => nomatch h) fun h => nomatch h

theorem field_eq_ok {i : Nat} {s : PyStr} : field vars i = .ok s ↔ vars[i]? = some s := by
  rw [field]
  cases vars[i]? with
  | none => exact iff_of_false (fun h => nomatch h) fun h => nomatch h
  | some s' => simp

theorem intField_eq_ok {i : Nat} {n : Int} :
    intField vars i = .ok n ↔ ∃ s, vars[i]? = some s ∧ pyAlphabet.IntText s n := by
  rw [intField, Except.bind_eq_ok]
  refine exists_congr fun s => and_congr field_eq_ok ?_
  rw [← Alphabet.readInt_eq_some_iff]
  show (match pyInt s with
    | some n => Except.ok n
    | none => .error InitErr.valueError) = .ok n ↔ pyInt s = some n
  cases pyInt s with
  | none => exact iff_of_false (fun h => nomatch h) fun h => nomatch h
  | some m => simp

theorem connect_eq_ok {t : PyStr × PyStr × PyStr} :
    connect out vars = .ok t ↔
      (∃ rest, vars = t.1 :: t.2.1 :: t.2.2 :: rest) ∧ Accepts out (withAudit t) := by
  -- the three fields are the first three parts
  have hfields : (∃ rest, vars = t.1 :: t.2.1 :: t.2.2 :: rest) ↔
      vars[0]? = some t.1 ∧ vars[1]? = some t.2.1 ∧ vars[2]? = some t.2.2 := by
    match vars with
    | [] => simp
    | [a] => simp
    | [a, b] => simp
    | a :: b :: c :: rest => simp
  rw [hfields, connect]
  constructor
  -- a run that returns has passed each call in turn
  · intro h
    obtain ⟨srv, hsrv, h⟩ := Except.bind_eq_ok.mp h
    obtain ⟨_, hclient, h⟩ := Except.bind_eq_ok.mp h
    obtain ⟨db, hdb, h⟩ := Except.bind_eq_ok.mp h
    obtain ⟨_, hdatabase, h⟩ := Except.bind_eq_ok.mp h
    obtain ⟨coll, hcoll, h⟩ := Except.bind_eq_ok.mp h
    obtain ⟨_, hcollection, h⟩ := Except.bind_eq_ok.mp h
    cases h
    exact ⟨⟨field_eq_ok.mp hsrv, field_eq_ok.mp hdb, field_eq_ok.mp hcoll⟩,
      ⟨call_eq_ok.mp hclient, call_eq_ok.mp hdatabase, call_eq_ok.mp hcollection, rfl⟩⟩
  -- and with all calls passed it returns
  · rintro ⟨⟨hsrv, hdb, hcoll⟩, h⟩
    refine Except.bind_eq_ok.mpr ⟨_, field_eq_ok.mpr hsrv, ?_⟩
    refine Except.bind_eq_ok.mpr ⟨(), call_eq_ok.mpr h.client, ?_⟩
    refine Except.bind_eq_ok.mpr ⟨_, field_eq_ok.mpr hdb, ?_⟩
    refine Except.bind_eq_ok.mpr ⟨(), call_eq_ok.mpr h.database, ?_⟩
    refine Except.bind_eq_ok.mpr ⟨_, field_eq_ok.mpr hcoll, ?_⟩
    exact Except.bind_eq_ok.mpr ⟨(), call_eq_ok.mpr h.collection, rfl⟩

/-- A target that is accepted is the one its parts lead to. -/
theorem Accepts.eq_withAudit {t : Target} (h : Accepts out t) :
    withAudit (t.srv, t.db, t.coll) = t := by
  obtain ⟨srv, db, coll, audit⟩ := t
  obtain rfl : audit = srv := h.audit
  rfl

/-- A host that `connect` accepts. -/
theorem connect_host {t : Target} :
    (∃ p, connect out (host.splitOn '|') = .ok p ∧ withAudit p = t) ↔
      (∃ rest, host.splitOn '|' = t.srv :: t.db :: t.coll :: rest) ∧ Accepts out t := by
  constructor
  · rintro ⟨p, hp, rfl⟩
    exact connect_eq_ok.mp hp
  · rintro ⟨hrest, h⟩
    have hback := h.eq_withAudit
    exact ⟨(t.srv, t.db, t.coll), connect_eq_ok.mpr ⟨hrest, hback.symm ▸ h⟩, hback⟩

theorem initQuery_eq_ok {t : Target} :
    initQuery out host = .ok t ↔
      ∃ extra, Written host ([t.srv, t.db, t.coll] ++ extra) ∧ Accepts out t := by
  have hinit : initQuery out host = .ok t ↔
      ∃ p, connect out (host.splitOn '|') = .ok p ∧ withAudit p = t := by
    rw [initQuery, Except.bind_eq_ok]
    simp only [pure, Except.pure, Except.ok.injEq]
  rw [hinit, connect_host]
  constructor
  · rintro ⟨⟨extra, hextra⟩, h⟩
    exact ⟨extra, (splitOn_eq_iff (by simp)).mp hextra, h⟩
  · rintro ⟨extra, hextra, h⟩
    exact ⟨⟨extra, (splitOn_eq_iff (by simp)).mpr hextra⟩, h⟩

theorem initFaker_eq_ok {u : Settings} :
    initFaker out host = .ok u ↔ ∃ size extra,
      Written host ([u.target.srv, u.target.db, u.target.coll, u.model, size] ++ extra) ∧
        pyAlphabet.IntText size u.bulkSize ∧ Accepts out u.target := by
  constructor
  · intro h
    obtain ⟨p, hp, h⟩ := Except.bind_eq_ok.mp h
    obtain ⟨model, hmodel, h⟩ := Except.bind_eq_ok.mp h
    obtain ⟨n, hn, h⟩ := Except.bind_eq_ok.mp h
    cases h
    obtain ⟨⟨rest, hrest⟩, haccepts⟩ := connect_host.mp ⟨p, hp, rfl⟩
    obtain ⟨size, hsize, htext⟩ := intField_eq_ok.mp hn
    rw [field_eq_ok, hrest] at hmodel
    rw [hrest] at hsize
    -- behind the three fields of `connect` there are two more
    match rest, hmodel, hsize with
    | _ :: _ :: extra, rfl, rfl =>
        exact ⟨_, extra, (splitOn_eq_iff (by simp)).mp hrest, htext, haccepts⟩
  · rintro ⟨size, extra, hextra, htext, haccepts⟩
    have hvars := (splitOn_eq_iff (by simp)).mpr hextra
    obtain ⟨p, hp, hback⟩ := connect_host.mpr ⟨⟨u.model :: size :: extra, hvars⟩, haccepts⟩
    refine Except.bind_eq_ok.mpr ⟨p, hp, ?_⟩
    refine Except.bind_eq_ok.mpr ⟨u.model, field_eq_ok.mpr (by rw [hvars]; rfl), ?_⟩
    refine Except.bind_eq_ok.mpr
      ⟨u.bulkSize, intField_eq_ok.mpr ⟨size, by rw [hvars]; rfl, htext⟩, ?_⟩
    rw [hback]
    rfl

/-- The batch size of a loader without a model is the fourth part. -/
theorem sized_host {t : Target} {n : Int} :
    (∃ p, connect out (host.splitOn '|') = .ok p ∧ withAudit p = t) ∧
        intField (host.splitOn '|') 3 = .ok n ↔
      ∃ size extra, Written host ([t.srv, t.db, t.coll, size] ++ extra) ∧
        pyAlphabet.IntText size n ∧ Accepts out t := by
  rw [connect_host, intField_eq_ok]
  constructor
  · rintro ⟨⟨⟨rest, hrest⟩, haccepts⟩, size, hsize, htext⟩
    rw [hrest] at hsize
    match rest, hsize with
    | _ :: extra, rfl => exact ⟨_, extra, (splitOn_eq_iff (by simp)).mp hrest, htext, haccepts⟩
  · rintro ⟨size, extra, hextra, htext, haccepts⟩
    have hvars := (splitOn_eq_iff (by simp)).mpr hextra
    exact ⟨⟨⟨size :: extra, hvars⟩, haccepts⟩, size, by rw [hvars]; rfl, htext⟩

theorem initFakerCustom_eq_ok {t : Target} {n : Int} :
    initFakerCustom out host = .ok (t, n) ↔ ∃ size extra,
      Written host ([t.srv, t.db, t.coll, size] ++ extra) ∧ pyAlphabet.IntText size n ∧
        Accepts out t := by
  rw [← sized_host]
  constructor
  · intro h
    obtain ⟨p, hp, h⟩ := Except.bind_eq_ok.mp h
    obtain ⟨m, hm, h⟩ := Except.bind_eq_ok.mp h
    cases h
    exact ⟨⟨p, hp, rfl⟩, hm⟩
  · rintro ⟨⟨p, hp, rfl⟩, hn⟩
    exact Except.bind_eq_ok.mpr ⟨p, hp, Except.bind_eq_ok.mpr ⟨n, hn, rfl⟩⟩

theorem initMimesis_eq_ok {t : Target} {n : Int} :
    initMimesis out host = .ok (t, n) ↔
      initFakerCustom out host = .ok (t, n) ∧ out.schema n = none := by
  constructor
  · intro h
    obtain ⟨p, hp, h⟩ := Except.bind_eq_ok.mp h
    obtain ⟨m, hm, h⟩ := Except.bind_eq_ok.mp h
    obtain ⟨_, hschema, h⟩ := Except.bind_eq_ok.mp h
    cases h
    exact ⟨Except.bind_eq_ok.mpr ⟨p, hp, Except.bind_eq_ok.mpr ⟨n, hm, rfl⟩⟩,
      call_eq_ok.mp hschema⟩
  · rintro ⟨h, hschema⟩
    obtain ⟨p, hp, h⟩ := Except.bind_eq_ok.mp h
    obtain ⟨m, hm, h⟩ := Except.bind_eq_ok.mp h
    cases h
    exact Except.bind_eq_ok.mpr ⟨p, hp, Except.bind_eq_ok.mpr ⟨n, hm,
      Except.bind_eq_ok.mpr ⟨(), call_eq_ok.mpr hschema, rfl⟩⟩⟩

/-- **A host is accepted if and only if its parts are**, and a user has the settings that its host
    was written from.  The parts hold no bar, the batch size is a text of an integer, the clients
    can be made, and whatever follows is ignored; the exceptions go to the cluster of the user. -/
theorem hosts_accepted_iff (out : Outside) (host : PyStr) :
    (∀ t, initQuery out host = .ok t ↔ ∃ extra,
      Written host ([t.srv, t.db, t.coll] ++ extra) ∧ Accepts out t) ∧
    (∀ u, initFaker out host = .ok u ↔ ∃ size extra,
      Written host ([u.target.srv, u.target.db, u.target.coll, u.model, size] ++ extra) ∧
        pyAlphabet.IntText size u.bulkSize ∧ Accepts out u.target) ∧
    (∀ t n, initFakerCustom out host = .ok (t, n) ↔ ∃ size extra,
      Written host ([t.srv, t.db, t.coll, size] ++ extra) ∧ pyAlphabet.IntText size n ∧
        Accepts out t) ∧
    ∀ t n, initMimesis out host = .ok (t, n) ↔ ∃ size extra,
      Written host ([t.srv, t.db, t.coll, size] ++ extra) ∧ pyAlphabet.IntText size n ∧
        Accepts out t ∧ out.schema n = none := by
  refine ⟨fun t => initQuery_eq_ok, fun u => initFaker_eq_ok, fun t n => initFakerCustom_eq_ok,
    fun t n => ?_⟩
  rw [initMimesis_eq_ok, initFakerCustom_eq_ok]
  constructor
  · rintro ⟨⟨size, extra, hextra, htext, haccepts⟩, hschema⟩
    exact ⟨size, extra, hextra, htext, haccepts, hschema⟩
  · rintro ⟨size, extra, hextra, htext, haccepts, hschema⟩
    exact ⟨⟨size, extra, hextra, htext, haccepts⟩, hschema⟩

/-- A host whose batch size is negative, with an underscore, and with a part too many. -/
example : initFaker ⟨fun _ => none, fun _ => none, fun _ => none, fun _ => none⟩
    "mongodb://h|db|coll|m.csv| -1_0 |x".toList =
      .ok ⟨⟨"mongodb://h".toList, "db".toList, "coll".toList, "mongodb://h".toList⟩,
        "m.csv".toList, -10⟩ := by
  rfl

/-- **Settings survive the host.**  A host that is written from accepted settings, the batch size
    in decimal, gives the settings back. -/
theorem initFaker_hostOf {out : Outside} {u : Settings} (h : Accepts out u.target)
    (hbar : ∀ part ∈ [u.target.srv, u.target.db, u.target.coll, u.model], '|' ∉ part) :
    initFaker out (hostOf [u.target.srv, u.target.db, u.target.coll, u.model,
      Alphabet.written u.bulkSize]) = .ok u := by
  refine initFaker_eq_ok.mpr ⟨_, [], ⟨rfl, fun part hpart => ?_⟩,
    Alphabet.intText_written pyAlphabet u.bulkSize, h⟩
  rw [List.append_nil] at hpart
  have hsplit : part ∈ [u.target.srv, u.target.db, u.target.coll, u.model] ++
      [Alphabet.written u.bulkSize] := hpart
  rcases List.mem_append.mp hsplit with hpart | hpart
  · exact hbar part hpart
  · rw [List.mem_singleton.mp hpart]
    exact pyAlphabet.not_mem_written (by decide) (by decide) u.bulkSize

end MLocust.Locustfile
