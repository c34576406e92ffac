/-
The configuration of a fleet of cache pods (selfconfig.py, fleet.py, shim.py, peers.go).

The controllers of any number of runs make pods on one account, those of a run under names that
begin alike.  The entry point of a pod lists the account until the pods of its run are there, reads
their addresses, and starts the server with them as its environment.

* `int_text`, `parsePeers_join` — what was written into the environment is read back;
* `PodAccount.Inv.step` — what one call, of whichever pod or controller, keeps;
* `full_mesh` — the peers of a server are the other pods of its run.
-/
import XetDcCache.Prometheus
import XetDcCache.Transition

namespace XetDcCache

open Transition

/-! ### Addresses -/

/-- One port of a pod as the API reports it. -/
structure PortInfo where
  ip : Option Str
  isIpPublic : Option Bool
  privatePort : Option ℤ
  publicPort : Option ℤ
  type : Option Str
deriving DecidableEq

/-- `str` of a number. -/
def decimal (n : ℤ) : Str := (toString n).toList

/-- What an f-string shows of a value. -/
def shown (v : Option Str) : Str := v.getD ['N', 'o', 'n', 'e']

def httpScheme : Str := ['h', 't', 't', 'p', ':', '/', '/']

def PortInfo.addr (p : PortInfo) : Str :=
  httpScheme ++ shown p.ip ++ ':' :: shown (p.publicPort.map decimal)

def parseExternalAddr (ports : List PortInfo) : Option Str :=
  (ports.find? fun p => p.type = some "tcp".toList ∧ p.isIpPublic = some true ∧
    p.privatePort = some 8000).map PortInfo.addr

/-! ### The environment -/

/-- Environment variables. -/
abbrev Environ := OrderedDict Str Str

/-- `d.update(e)`. -/
def updated (d e : Environ) : Environ := e.items.foldl (fun d p => d.set p.1 p.2) d

/-- `env` of the server. -/
def getenv (environ : Environ) (key : String) (def' : Str) : Str :=
  let v := (environ.get? key.toList).getD []
  if v ≠ [] then v else def'

/-- Why a pod does not come to start its server. -/
inductive StartError
  | missing (key : Str)
  | sizeUnset
  | sizeNotInteger (raw : Str)
  | sizeNotPositive (raw : Str)
  | tooFew (fleetPrefix : Str)
  | noAddr (id : Str)
deriving DecidableEq

/-- What the characters that are decimal digits stand for. -/
structure DigitTable where
  value? : Char → Option ℕ
  ascii : ∀ c, c.isDigit → value? c = some (c.toNat - 48)
  underscore : value? '_' = none

/-- The digits of ASCII and no others. -/
def asciiDigits : DigitTable where
  value? c := if c.isDigit then some (c.toNat - 48) else none
  ascii _ hc := if_pos hc
  underscore := rfl

/-- The digits of `int`, which may have single underscores between them. -/
def intDigits (u : DigitTable) : ℕ → Str → Option ℕ
  | n, [] => some n
  | n, '_' :: c :: s => (u.value? c).bind fun d => intDigits u (10 * n + d) s
  | n, c :: s => (u.value? c).bind fun d => intDigits u (10 * n + d) s

def intUnsigned (u : DigitTable) : Str → Option ℕ
  | [] => none
  | c :: s => (u.value? c).bind fun d => intDigits u d s

/-- `int` of a string. -/
def parseInteger (u : DigitTable) (raw : Str) : Option ℤ :=
  match strip raw with
  | '-' :: s => (intUnsigned u s).map fun n => -(n : ℤ)
  | '+' :: s => (intUnsigned u s).map (↑)
  | s => (intUnsigned u s).map (↑)

def expectedFleetSize (u : DigitTable) (environ : Environ) : Except StartError ℤ :=
  match environ.get? "FLEET_SIZE".toList with
  | none => .error .sizeUnset
  | some raw =>
    match parseInteger u raw with
    | none => .error (.sizeNotInteger raw)
    | some size => if size ≤ 0 then .error (.sizeNotPositive raw) else .ok size

/-- `addrs[i]`, where a missing address is the empty one. -/
def addressIn (addrs : OrderedDict Str (Option Str)) (i : Str) : Str :=
  (addrs.get? i).join.getD []

/-- What `assemble_env` writes. -/
def configured (own : Str) (peers : List Str) (token : Str) (extra : Environ) : Environ :=
  let env := extra.set "PUBLIC_BASE".toList own
  let env := env.set "SELF_URL".toList own
  let env := env.set "PEERS".toList ([','].intercalate peers)
  if token = [] then env else env.set "SHIM_AUTH_TOKEN".toList token

def assembleEnv (ownId : Str) (peerIds : List Str) (addrs : OrderedDict Str (Option Str))
    (token : Str) (extra : Environ) : Except StartError Environ :=
  match (ownId :: peerIds).find? fun i => addressIn addrs i = [] with
  | some i => .error (.noAddr i)
  | none => .ok (configured (addressIn addrs ownId) (peerIds.map (addressIn addrs)) token extra)

/-! ### The entry point of a pod -/

/-- A pod of the account as a listing shows it. -/
structure Pod where
  id : Str
  name : Str
deriving DecidableEq

def listPodsByPrefix (pods : List Pod) (start : Str) : List Pod :=
  pods.filter fun p => start <+: p.name

def discoverIds (pods : List Pod) (ownId : Str) : List Str :=
  (pods.filter fun p => p.id ≠ ownId).map Pod.id

/-- What `main` reads of its environment. -/
structure Entry where
  environ : Environ
  ownId : Str
  fleetPrefix : Str
  token : Str
  extra : Environ
  expected : ℤ

/-- The start of `main`. -/
def readEntry (u : DigitTable) (environ : Environ) : Except StartError Entry :=
  match environ.get? "RUNPOD_POD_ID".toList, environ.get? "FLEET_PREFIX".toList with
  | none, _ => .error (.missing "RUNPOD_POD_ID".toList)
  | some _, none => .error (.missing "FLEET_PREFIX".toList)
  | some ownId, some fleetPrefix =>
    let keys := ["XORB_CACHE_MAX_GIB".toList, "CACHE_DIR".toList, "PORT".toList]
    let extra := keys.filterMap fun k => (environ.get? k).map (k, ·)
    (expectedFleetSize u environ).map fun expected =>
      ⟨environ, ownId, fleetPrefix, (environ.get? "SHIM_AUTH_TOKEN".toList).getD [], .ofPairs extra,
        expected⟩

/-- Where the entry point of a pod is: in the loop of `main`, in a turn of the loop of `resolve`
with the addresses it has still to read, in the server, or out with an error. -/
inductive Phase
  | listing (e : Entry)
  | resolving (e : Entry) (peers todo : List Str) (addrs : OrderedDict Str (Option Str))
  | serving (environ : Environ)
  | failed (err : StartError)

/-- A pod starts. -/
def boot (u : DigitTable) (environ : Environ) : Phase :=
  match readEntry u environ with
  | .ok e => .listing e
  | .error err => .failed err

namespace Phase

/-- A turn of the loop of `main` that gets this listing, before its deadline or `late`. -/
def list (reply : List Pod) (late : Bool) : Phase → Option Phase
  | .listing e =>
    let pods := listPodsByPrefix reply e.fleetPrefix
    if (∃ p ∈ pods, p.id = e.ownId) ∧ e.expected ≤ pods.length then
      let peers := discoverIds pods e.ownId
      some (.resolving e peers (e.ownId :: peers) .empty)
    else some (if late then .failed (.tooFew e.fleetPrefix) else .listing e)
  | _ => none

/-- The next `get_pod_ports` of `resolve`. -/
def readPorts (reply : List PortInfo) : Phase → Option Phase
  | .resolving e peers (i :: todo) addrs =>
    some (.resolving e peers todo (addrs.set i (parseExternalAddr reply)))
  | _ => none

/-- The end of a turn of the loop of `resolve`, with the rest of `main` when it is the last. -/
def assemble (late : Bool) : Phase → Option Phase
  | .resolving e peers [] addrs =>
    match assembleEnv e.ownId peers addrs e.token e.extra with
    | .ok env => some (.serving (updated e.environ env))
    | .error err =>
      some (if late then .failed err else .resolving e peers (e.ownId :: peers) .empty)
  | _ => none

/-- The pod whose ports are read next. -/
def asks : Phase → Option Str
  | .resolving _ _ (i :: _) _ => some i
  | _ => none

end Phase

/-- The peers of a server that starts with this environment. -/
def serverPeers (environ : Environ) : List GoString :=
  parsePeers (.ofStr (getenv environ "PEERS" [])) (.ofStr (getenv environ "SELF_URL" []))

/-! ### The account -/

def testbedPrefix : Str := "xet-cache-".toList

def podPrefix (runid : Str) : Str := testbedPrefix ++ runid ++ ['-']

def podName (runid group : Str) : Str := podPrefix runid ++ group

/-- `_pod_env`. -/
def podEnv (runid : Str) (fleetSize : ℕ) (environ : Environ) : Except StartError Environ :=
  match environ.get? "RUNPOD_API_KEY".toList with
  | none => .error (.missing "RUNPOD_API_KEY".toList)
  | some key => .ok <| .ofPairs [
      ("XORB_CACHE_MAX_GIB".toList, "0".toList),
      ("SHIM_AUTH_TOKEN".toList, (environ.get? "SHIM_AUTH_TOKEN".toList).getD []),
      ("RUNPOD_API_KEY".toList, key),
      ("FLEET_PREFIX".toList, podPrefix runid),
      ("FLEET_SIZE".toList, (toString fleetSize).toList),
      ("STREAM_CACHE_HITS".toList, (environ.get? "STREAM_CACHE_HITS".toList).getD [])]

/-- The runs on an account: the groups and the controller's environment of each, and of the
platform what the image sets and the address that each pod gets.  A run is named by the second it
began. -/
structure Testbed where
  digits : DigitTable
  groups : Str → List Str
  groups_nodup : ∀ runid, (groups runid).Nodup
  runid_length : ∀ runid, groups runid ≠ [] → runid.length = 15
  controller : Str → Environ
  image : Environ
  addr : Str → Str

/-- A pod that a run has made for one of its groups. -/
structure CachePod where
  runid : Str
  group : Str
  id : Str
deriving DecidableEq

def CachePod.pod (c : CachePod) : Pod := ⟨c.id, podName c.runid c.group⟩

structure PodAccount where
  pods : List CachePod
  others : List Pod
  phase : Str → Option Phase
  metricsUrls : List (CachePod × Str)

inductive AccountAct
  | create (runid group id : Str)
  | other (p : Pod)
  | list (id : Str) (reply : List Pod) (late : Bool)
  | ports (id : Str) (reply : List PortInfo)
  | assemble (id : Str) (late : Bool)
  | waitAddr (c : CachePod) (reply : List PortInfo)

namespace PodAccount

def start : PodAccount := ⟨[], [], fun _ => none, []⟩

/-- Everything on the account. -/
def listed (s : PodAccount) : List Pod := s.pods.map CachePod.pod ++ s.others

/-- The pods of a run. -/
def fleet (s : PodAccount) (runid : Str) : List CachePod := s.pods.filter (·.runid = runid)

/-- A pod's entry point goes on. -/
def advance (s : PodAccount) (id : Str) (next : Phase → Option Phase) : Option PodAccount :=
  ((s.phase id).bind next).map fun ph => { s with phase := Function.update s.phase id (some ph) }

end PodAccount

namespace Testbed

variable (T : Testbed)

/-- The environment of a pod. -/
def environ (runid id : Str) : Except StartError Environ :=
  (podEnv runid (T.groups runid).length (T.controller runid)).map fun env =>
    (updated T.image env).set "RUNPOD_POD_ID".toList id

/-- One call of a controller or a pod.  A controller makes one pod for each of its groups. -/
def step (s : PodAccount) : AccountAct → Option PodAccount
  | .create runid group id =>
    if (T.groups runid).contains group ∧ ∀ c ∈ s.pods, ¬(c.runid = runid ∧ c.group = group) then
      match T.environ runid id with
      | .error _ => none
      | .ok environ => some { s with
          pods := s.pods ++ [⟨runid, group, id⟩]
          phase := Function.update s.phase id (some (boot T.digits environ)) }
    else none
  | .other p => some { s with others := s.others ++ [p] }
  | .list id reply late => s.advance id (Phase.list reply late)
  | .ports id reply => s.advance id (Phase.readPorts reply)
  | .assemble id late => s.advance id (Phase.assemble late)
  | .waitAddr c reply =>
    if c ∈ s.pods then
      some { s with metricsUrls := s.metricsUrls ++ ((parseExternalAddr reply).map (c, ·)).toList }
    else none

/-- An answer about the ports of a pod: it has its address, or none yet. -/
def Tells (id : Str) (reply : List PortInfo) : Prop :=
  ∀ a ∈ parseExternalAddr reply, a = T.addr id

instance (id : Str) (reply : List PortInfo) : Decidable (T.Tells id reply) :=
  inferInstanceAs (Decidable (∀ a ∈ parseExternalAddr reply, a = T.addr id))

/-- What the runs rely on: ids are new, a listing shows only pods there are, each once, and the
address of a pod does not change; what else is on the account has other names. -/
def Reliable (s : PodAccount) : AccountAct → Prop
  | .create _ _ id => ∀ p ∈ s.listed, p.id ≠ id
  | .other p => (∀ q ∈ s.listed, q.id ≠ p.id) ∧ ¬ testbedPrefix <+: p.name
  | .list _ reply _ => reply.Nodup ∧ ∀ p ∈ reply, p ∈ s.listed
  | .ports id reply => ∀ i ∈ (s.phase id).bind Phase.asks, T.Tells i reply
  | .assemble _ _ => True
  | .waitAddr c reply => T.Tells c.id reply

instance (s : PodAccount) : ∀ a, Decidable (T.Reliable s a)
  | .create _ _ id => inferInstanceAs (Decidable (∀ p ∈ s.listed, p.id ≠ id))
  | .other p => inferInstanceAs
      (Decidable ((∀ q ∈ s.listed, q.id ≠ p.id) ∧ ¬ testbedPrefix <+: p.name))
  | .list _ reply _ => inferInstanceAs (Decidable (reply.Nodup ∧ ∀ p ∈ reply, p ∈ s.listed))
  | .ports id reply => inferInstanceAs
      (Decidable (∀ i ∈ (s.phase id).bind Phase.asks, T.Tells i reply))
  | .assemble _ _ => .isTrue trivial
  | .waitAddr c reply => inferInstanceAs (Decidable (T.Tells c.id reply))

end Testbed

/-! ### What is written is read back -/

section Text

theorem digits_text (u : DigitTable) {ds : Str} (h : ∀ c ∈ ds, c.isDigit) (n : ℕ) :
    intDigits u n ds = some (Nat.ofDigitChars 10 ds n) := by
  induction ds generalizing n with
  | nil => rfl
  | cons c ds ih =>
    have hc : c.isDigit := h c List.mem_cons_self
    have hunder : c ≠ '_' := by
      rintro rfl
      exact absurd hc (by decide)
    have hstep : intDigits u n (c :: ds) =
        (u.value? c).bind fun d => intDigits u (10 * n + d) ds := by
      rw [intDigits]
      rintro - - rfl
      exact absurd rfl hunder
    rw [hstep, u.ascii c hc, Option.bind_some, ih fun c hc => h c (List.mem_cons_of_mem _ hc),
      Nat.ofDigitChars_cons]
    rfl

theorem strip_of_noSpace {s : Str} (h : ∀ c ∈ s, isSpace c = false) : strip s = s := by
  have hdrop : ∀ l : Str, (∀ c ∈ l, isSpace c = false) → l.dropWhile isSpace = l := by
    rintro (_ | ⟨c, l⟩) hl
    · rfl
    · exact List.dropWhile_cons_of_neg (by rw [hl c List.mem_cons_self]; exact Bool.false_ne_true)
  rw [strip, hdrop s h, hdrop s.reverse fun c hc => h c (List.mem_reverse.mp hc),
    List.reverse_reverse]

/-- The digits of a number, of which the first is one, are read as that number. -/
theorem intUnsigned_text (u : DigitTable) (n : ℕ) :
    intUnsigned u (Nat.toDigits 10 n) = some n ∧
      ∃ c ds, Nat.toDigits 10 n = c :: ds ∧ c.isDigit := by
  have hdigits : ∀ c ∈ Nat.toDigits 10 n, c.isDigit := fun c hc =>
    Nat.isDigit_of_mem_toDigits (by decide) (by decide) hc
  cases hds : Nat.toDigits 10 n with
  | nil => exact absurd hds Nat.toDigits_ne_nil
  | cons c ds =>
    have hc : c.isDigit := hdigits c (hds ▸ List.mem_cons_self)
    refine ⟨?_, c, ds, rfl, hc⟩
    rw [intUnsigned, u.ascii c hc, Option.bind_some,
      digits_text u fun c hc => hdigits c (hds ▸ List.mem_cons_of_mem _ hc)]
    have hvalue := Nat.ofDigitChars_ten_toDigits (n := n)
    rw [hds, Nat.ofDigitChars_cons] at hvalue
    simpa using hvalue

/-- `int` reads what `str` has written. -/
theorem int_text (u : DigitTable) (n : ℕ) : parseInteger u (toString n).toList = some (n : ℤ) := by
  have hstrip : strip (Nat.toDigits 10 n) = Nat.toDigits 10 n :=
    strip_of_noSpace fun c hc => isSpace_of_numeric <| numeric_int n c <| by
      rw [Int.toString_eq_repr, Int.repr_eq_if, if_pos (Int.natCast_nonneg n), Nat.toList_repr]
      exact hc
  obtain ⟨hvalue, c, ds, hds, hc⟩ := intUnsigned_text u n
  show parseInteger u (Nat.repr n).toList = _
  rw [Nat.toList_repr, parseInteger, hstrip]
  split
  · next heq =>
    obtain ⟨rfl, -⟩ := List.cons_eq_cons.mp (hds.symm.trans heq)
    exact absurd hc (by decide)
  · next heq =>
    obtain ⟨rfl, -⟩ := List.cons_eq_cons.mp (hds.symm.trans heq)
    exact absurd hc (by decide)
  · rw [hvalue]
    rfl

theorem int_text_neg (u : DigitTable) (n : ℕ) :
    parseInteger u ('-' :: (toString n).toList) = some (-(n : ℤ)) := by
  have hspace : ∀ c ∈ '-' :: Nat.toDigits 10 n, isSpace c = false := by
    refine List.forall_mem_cons.mpr ⟨by decide, fun c hc => ?_⟩
    exact isSpace_of_word (by simp [isAsciiWord, Char.isAlphanum,
      Nat.isDigit_of_mem_toDigits (by decide) (by decide) hc])
  show parseInteger u ('-' :: (Nat.repr n).toList) = _
  rw [Nat.toList_repr, parseInteger, strip_of_noSpace hspace]
  simp only [(intUnsigned_text u n).1]
  rfl

theorem parseInteger_decimal (u : DigitTable) (n : ℤ) : parseInteger u (decimal n) = some n := by
  cases n with
  | ofNat n => exact int_text u n
  | negSucc n =>
    have htext : decimal (Int.negSucc n) = '-' :: (toString (n + 1)).toList := by
      rw [decimal, Int.toString_eq_repr, Int.repr_eq_if, if_neg (Int.not_le.mpr (Int.negSucc_lt_zero n)),
        String.toList_append]
      rfl
    rw [htext, int_text_neg]
    rfl

theorem ofStr_injective : Function.Injective GoString.ofStr :=
  List.map_injective_iff.mpr fun a b h => by injection h

theorem ofStr_intercalate (sep : Char) (parts : List Str) :
    GoString.ofStr ([sep].intercalate parts) =
      [GoChar.rune sep].intercalate (parts.map GoString.ofStr) := by
  induction parts with
  | nil => rfl
  | cons p parts ih =>
    cases parts with
    | nil => simp [GoString.ofStr]
    | cons q parts =>
      rw [List.map_cons, List.map_cons, List.intercalate_cons_cons, List.intercalate_cons_cons,
        ← List.map_cons, ← ih]
      simp [GoString.ofStr]

theorem shown_numeric (o : Option ℤ) :
    shown (o.map decimal) ≠ [] ∧ ∀ c ∈ shown (o.map decimal), isNumeric c := by
  cases o with
  | none =>
    have hnone : ∀ c ∈ ['N', 'o', 'n', 'e'], isNumeric c := by simp [isNumeric, isAsciiWord]
    exact ⟨List.cons_ne_nil _ _, hnone⟩
  | some n => exact ⟨toString_int_ne_nil n, numeric_int n⟩

/-- The last character of an address is one of a number, or of `None`. -/
theorem addr_ends (p : PortInfo) : ∃ init c, p.addr = init ++ [c] ∧ isNumeric c := by
  obtain ⟨hne, hnum⟩ := shown_numeric p.publicPort
  obtain ⟨init, c, hport⟩ := (List.eq_nil_or_concat' _).resolve_left hne
  refine ⟨httpScheme ++ shown p.ip ++ ':' :: init, c, ?_, hnum c ?_⟩
  · rw [PortInfo.addr, hport, List.append_assoc, List.append_assoc, List.cons_append,
      List.append_assoc]
  · rw [hport]
    exact List.mem_concat_self

/-- The server takes an address as it is. -/
theorem addr_trimmed (p : PortInfo) :
    trimSlash (trimSpace (GoString.ofStr p.addr)) = GoString.ofStr p.addr := by
  obtain ⟨init, c, heq, hc⟩ := addr_ends p
  have hfirst : (GoString.ofStr p.addr).dropWhile GoChar.isSpace = GoString.ofStr p.addr := rfl
  have hspace : (GoChar.rune c).isSpace = false := by
    rw [GoChar.isSpace, isSpace_of_numeric hc]
    rfl
  have hslash : c ≠ '/' := by
    rintro rfl
    exact absurd hc (by decide)
  have hlast : (GoString.ofStr p.addr).reverse = GoChar.rune c :: (GoString.ofStr init).reverse := by
    rw [heq, GoString.ofStr, List.map_append, List.reverse_append]
    rfl
  have hkept : ¬ (GoChar.rune c).isSpace = true := by
    rw [hspace]
    exact Bool.false_ne_true
  rw [trimSpace, hfirst, hlast, List.dropWhile_cons_of_neg hkept, ← hlast, List.reverse_reverse,
    trimSlash, hlast, List.dropWhile_cons_of_neg (by simpa using hslash), ← hlast,
    List.reverse_reverse]

theorem addr_ne_nil (p : PortInfo) : p.addr ≠ [] := List.cons_ne_nil 'h' _

/-- The server reads the addresses that PEERS was made of, but for its own. -/
theorem parsePeers_join {self : Str} {addrs : List Str} (hself : ∃ p : PortInfo, self = p.addr)
    (haddrs : ∀ a ∈ addrs, ∃ p : PortInfo, a = p.addr) (hcomma : ∀ a ∈ addrs, ',' ∉ a) :
    parsePeers (.ofStr ([','].intercalate addrs)) (.ofStr self) =
      (addrs.filter (· ≠ self)).map GoString.ofStr := by
  obtain ⟨p, rfl⟩ := hself
  rw [parsePeers, addr_trimmed, ofStr_intercalate]
  cases addrs with
  | nil => rfl
  | cons a as =>
    have hsplit : ∀ x ∈ (a :: as).map GoString.ofStr, GoChar.rune ',' ∉ x := by
      intro x hx
      obtain ⟨b, hb, rfl⟩ := List.mem_map.mp hx
      exact fun hmem => hcomma b hb ((List.mem_map_of_injective fun _ _ h => by injection h).mp hmem)
    have htrim : (((a :: as).map GoString.ofStr).map fun p => trimSlash (trimSpace p)) =
        (a :: as).map GoString.ofStr := by
      rw [List.map_map]
      refine List.map_congr_left fun b hb => ?_
      obtain ⟨q, rfl⟩ := haddrs b hb
      exact addr_trimmed q
    show (((_ : GoString).splitOn (.rune ',')).map fun p => trimSlash (trimSpace p)).filter _ = _
    rw [List.splitOn_intercalate _ hsplit (List.cons_ne_nil _ _), htrim, List.filter_map]
    congr 1
    refine List.filter_congr fun b hb => ?_
    obtain ⟨q, rfl⟩ := haddrs b hb
    have hne : GoString.ofStr q.addr ≠ [] := List.cons_ne_nil _ _
    simp [hne, ofStr_injective.eq_iff]

end Text

/-! ### Reading an environment -/

section Environment

variable {d e : Environ} {k : Str}

theorem get?_updated (d e : Environ) (k : Str) :
    (updated d e).get? k = (e.get? k).or (d.get? k) := by
  have hfold : ∀ {l : List (Str × Str)} {d : Environ}, (l.map Prod.fst).Nodup →
      (l.foldl (fun d p => d.set p.1 p.2) d).get? k =
        ((l.find? fun p => p.1 = k).map Prod.snd).or (d.get? k) := by
    intro l
    induction l with
    | nil => exact fun _ => rfl
    | cons p l ih =>
      intro d hnd
      obtain ⟨hp, hnd⟩ := List.nodup_cons.mp hnd
      rw [List.foldl_cons, ih hnd, OrderedDict.get?_set]
      by_cases hk : p.1 = k
      · have hnone : (l.find? fun q => q.1 = k) = none :=
          List.find?_eq_none.mpr fun q hq hqk =>
            hp (List.mem_map.mpr ⟨q, hq, (of_decide_eq_true hqk).trans hk.symm⟩)
        rw [hnone, if_pos hk.symm, List.find?_cons_of_pos (by simpa using hk)]
        rfl
      · rw [if_neg (Ne.symm hk), List.find?_cons_of_neg (by simpa using hk)]
  exact hfold e.nodup

theorem get?_ofPairs_of_notMem {pairs : List (Str × Str)} (h : ∀ p ∈ pairs, p.1 ≠ k) :
    (OrderedDict.ofPairs pairs).get? k = none := by
  have hfold : ∀ {l : List (Str × Str)} {d : Environ}, d.get? k = none → (∀ p ∈ l, p.1 ≠ k) →
      (l.foldl (fun d p => d.set p.1 p.2) d).get? k = none := by
    intro l
    induction l with
    | nil => exact fun hd _ => hd
    | cons p l ih =>
      intro d hd hl
      refine ih ?_ fun q hq => hl q (List.mem_cons_of_mem _ hq)
      rw [OrderedDict.get?_set, if_neg (hl p List.mem_cons_self).symm, hd]
  exact hfold rfl h

theorem configured_get? {own token : Str} {peers : List Str} {extra : Environ}
    (hextra : extra.get? "SHIM_AUTH_TOKEN".toList = none) :
    (configured own peers token extra).get? "PUBLIC_BASE".toList = some own ∧
      (configured own peers token extra).get? "SELF_URL".toList = some own ∧
      (configured own peers token extra).get? "PEERS".toList = some ([','].intercalate peers) ∧
      (configured own peers token extra).get? "SHIM_AUTH_TOKEN".toList =
        if token = [] then none else some token := by
  rw [configured]
  by_cases htoken : token = []
  · rw [if_pos htoken, if_pos htoken]
    simp only [OrderedDict.get?_set, hextra]
    exact ⟨rfl, rfl, rfl, rfl⟩
  · rw [if_neg htoken, if_neg htoken]
    simp only [OrderedDict.get?_set]
    exact ⟨rfl, rfl, rfl, rfl⟩

theorem getenv_of_get? {key : String} {v def' : Str} (h : d.get? key.toList = some v)
    (hv : v ≠ [] ∨ def' = v) : getenv d key def' = v := by
  simp only [getenv, h, Option.getD_some]
  by_cases hne : v = []
  · rw [if_neg (not_not_intro hne)]
    exact hv.resolve_left (not_not_intro hne)
  · rw [if_pos hne]

end Environment

/-! ### The entry point -/

namespace Testbed

variable (T : Testbed)

/-- The secret of a run. -/
def token (runid : Str) : Str :=
  ((T.controller runid).get? "SHIM_AUTH_TOKEN".toList).getD []

/-- What a pod reads at its start. -/
structure EntryOf (c : CachePod) (e : Entry) : Prop where
  ownId : e.ownId = c.id
  fleetPrefix : e.fleetPrefix = podPrefix c.runid
  token : e.token = T.token c.runid
  expected : e.expected = (T.groups c.runid).length
  environ : e.environ.get? "SHIM_AUTH_TOKEN".toList = some e.token
  extra : e.extra.get? "SHIM_AUTH_TOKEN".toList = none

variable {T}

theorem podEnv_get? {runid : Str} {n : ℕ} {controller env : Environ}
    (h : podEnv runid n controller = .ok env) :
    env.get? "FLEET_PREFIX".toList = some (podPrefix runid) ∧
      env.get? "FLEET_SIZE".toList = some (toString n).toList ∧
      env.get? "SHIM_AUTH_TOKEN".toList =
        some ((controller.get? "SHIM_AUTH_TOKEN".toList).getD []) := by
  rw [podEnv] at h
  cases hkey : controller.get? "RUNPOD_API_KEY".toList with
  | none =>
    rw [hkey] at h
    cases h
  | some key =>
    rw [hkey] at h
    have hkeys : ["XORB_CACHE_MAX_GIB".toList, "SHIM_AUTH_TOKEN".toList, "RUNPOD_API_KEY".toList,
        "FLEET_PREFIX".toList, "FLEET_SIZE".toList, "STREAM_CACHE_HITS".toList].Nodup := by decide
    obtain rfl := Except.ok.inj h
    refine ⟨?_, ?_, ?_⟩ <;> refine OrderedDict.get?_eq_some.mpr ?_ <;>
      rw [OrderedDict.ofPairs_items (by exact hkeys)] <;> simp

/-- A pod of a run begins to list. -/
theorem boot_eq {c : CachePod} {environ : Environ} (hgroup : c.group ∈ T.groups c.runid)
    (h : T.environ c.runid c.id = .ok environ) :
    ∃ e, boot T.digits environ = .listing e ∧ T.EntryOf c e := by
  rw [Testbed.environ] at h
  cases henv : podEnv c.runid (T.groups c.runid).length (T.controller c.runid) with
  | error err =>
    rw [henv] at h
    cases h
  | ok env =>
    rw [henv] at h
    obtain rfl := Except.ok.inj h
    obtain ⟨hfleet, hsize, htoken⟩ := podEnv_get? henv
    have hget {k v : Str} (hk : k ≠ "RUNPOD_POD_ID".toList) (hv : env.get? k = some v) :
        ((updated T.image env).set "RUNPOD_POD_ID".toList c.id).get? k = some v := by
      rw [OrderedDict.get?_set, if_neg hk, get?_updated, hv]
      rfl
    have hid : ((updated T.image env).set "RUNPOD_POD_ID".toList c.id).get?
        "RUNPOD_POD_ID".toList = some c.id := by
      rw [OrderedDict.get?_set, if_pos rfl]
    have hpositive : ¬ ((T.groups c.runid).length : ℤ) ≤ 0 := by
      have hlength := List.length_pos_of_mem hgroup
      omega
    rw [boot, readEntry, hid, hget (by decide) hfleet]
    simp only
    rw [expectedFleetSize, hget (by decide) hsize]
    simp only
    rw [int_text]
    simp only
    rw [if_neg hpositive]
    refine ⟨_, rfl, rfl, rfl, ?_, rfl, ?_, ?_⟩
    · rw [hget (by decide) htoken]
      rfl
    · rw [hget (by decide) htoken]
      rfl
    · refine get?_ofPairs_of_notMem fun p hp => ?_
      obtain ⟨k, hk, hp⟩ := List.mem_filterMap.mp hp
      obtain ⟨v, -, rfl⟩ := Option.map_eq_some_iff.mp hp
      rintro rfl
      revert hk
      decide

/-! ### The pods of a run -/

variable (T) in
/-- The peers of a pod are the other pods of its run, all of which there are. -/
def Knows (s : PodAccount) (c : CachePod) (peers : List Str) : Prop :=
  (s.fleet c.runid).length = (T.groups c.runid).length ∧
    (c.id :: peers).Perm ((s.fleet c.runid).map CachePod.id)

variable (T) in
/-- The environment of a server with these peers. -/
structure Serves (c : CachePod) (peers : List Str) (environ : Environ) : Prop where
  known : ∀ i ∈ c.id :: peers, ∃ p : PortInfo, T.addr i = p.addr
  publicBase : environ.get? "PUBLIC_BASE".toList = some (T.addr c.id)
  selfUrl : environ.get? "SELF_URL".toList = some (T.addr c.id)
  peers : environ.get? "PEERS".toList = some ([','].intercalate (peers.map T.addr))
  token : environ.get? "SHIM_AUTH_TOKEN".toList = some (T.token c.runid)

variable (T) in
/-- What is so of a pod at each point of its start. -/
def Meets (s : PodAccount) (c : CachePod) : Phase → Prop
  | .listing e => T.EntryOf c e
  | .resolving e peers _ addrs => T.EntryOf c e ∧ T.Knows s c peers ∧
      ∀ i a, addrs.get? i = some (some a) → a = T.addr i ∧ ∃ p : PortInfo, a = p.addr
  | .serving environ => ∃ peers, T.Knows s c peers ∧ T.Serves c peers environ
  | .failed err => err = .tooFew (podPrefix c.runid) ∨ ∃ i, err = .noAddr i

variable (T) in
structure Inv (s : PodAccount) : Prop where
  ids : (s.listed.map Pod.id).Nodup
  groups : (s.pods.map fun c => (c.runid, c.group)).Nodup
  mem_groups : ∀ c ∈ s.pods, c.group ∈ T.groups c.runid
  others : ∀ p ∈ s.others, ¬ testbedPrefix <+: p.name
  phase : ∀ c ∈ s.pods, ∃ ph, s.phase c.id = some ph ∧ T.Meets s c ph
  urls : ∀ e ∈ s.metricsUrls, e.2 = T.addr e.1.id

section Invariant

variable {s s' : PodAccount} {c : CachePod}

theorem mem_fleet {runid : Str} : c ∈ s.fleet runid ↔ c ∈ s.pods ∧ c.runid = runid := by
  rw [PodAccount.fleet, List.mem_filter, decide_eq_true_iff]

/-- A run has no more pods than groups. -/
theorem length_fleet_le {pods : List CachePod}
    (hgroups : (pods.map fun c => (c.runid, c.group)).Nodup)
    (hmem : ∀ c ∈ pods, c.group ∈ T.groups c.runid) (runid : Str) :
    (pods.filter (·.runid = runid)).length ≤ (T.groups runid).length := by
  have hrun {c : CachePod} (hc : c ∈ pods.filter (·.runid = runid)) : c ∈ pods ∧ c.runid = runid := by
    rwa [List.mem_filter, decide_eq_true_iff] at hc
  have hnd : ((pods.filter (·.runid = runid)).map CachePod.group).Nodup := by
    have hpairs : ((pods.filter (·.runid = runid)).map fun c => (c.runid, c.group)).Nodup :=
      hgroups.sublist (List.filter_sublist.map _)
    refine hpairs.of_map _ |>.map_on fun c hc d hd hgroup => ?_
    refine List.inj_on_of_nodup_map hpairs hc hd ?_
    rw [(hrun hc).2, (hrun hd).2, hgroup]
  have hsub : (pods.filter (·.runid = runid)).map CachePod.group ⊆ T.groups runid := by
    intro g hg
    obtain ⟨c, hc, rfl⟩ := List.mem_map.mp hg
    exact (hrun hc).2 ▸ hmem c (hrun hc).1
  have hle := (hnd.subperm hsub).length_le
  rwa [List.length_map] at hle

theorem Inv.runid_length (h : T.Inv s) (hc : c ∈ s.pods) : c.runid.length = 15 :=
  T.runid_length c.runid (List.ne_nil_of_mem (h.mem_groups c hc))

/-- Only the pods of a run have a name that begins like theirs. -/
theorem Inv.fleet_of_prefix (h : T.Inv s) (hc : c ∈ s.pods) {p : Pod} (hp : p ∈ s.listed)
    (hname : podPrefix c.runid <+: p.name) : p ∈ (s.fleet c.runid).map CachePod.pod := by
  rcases List.mem_append.mp hp with hp | hp
  · obtain ⟨d, hd, rfl⟩ := List.mem_map.mp hp
    refine List.mem_map_of_mem (mem_fleet.mpr ⟨hd, ?_⟩)
    -- the run ids are equally long
    have hruns : podPrefix c.runid <+: podPrefix d.runid :=
      List.prefix_of_prefix_length_le hname (List.prefix_append _ _) (by
        simp [podPrefix, h.runid_length hc, h.runid_length hd])
    have heq : podPrefix c.runid = podPrefix d.runid :=
      hruns.eq_of_length (by simp [podPrefix, h.runid_length hc, h.runid_length hd])
    exact (List.append_cancel_left (List.append_cancel_right heq)).symm
  · refine absurd ?_ (h.others p hp)
    rw [podPrefix, List.append_assoc] at hname
    exact (List.prefix_append _ _).trans hname

/-- A pod that is through with listing has found its run. -/
theorem Inv.knows (h : T.Inv s) (hc : c ∈ s.pods) {reply : List Pod} (hnd : reply.Nodup)
    (hreply : ∀ p ∈ reply, p ∈ s.listed)
    (hown : ∃ p ∈ listPodsByPrefix reply (podPrefix c.runid), p.id = c.id)
    (hsize : (T.groups c.runid).length ≤ (listPodsByPrefix reply (podPrefix c.runid)).length) :
    T.Knows s c (discoverIds (listPodsByPrefix reply (podPrefix c.runid)) c.id) := by
  have hsub : listPodsByPrefix reply (podPrefix c.runid) ⊆
      (s.fleet c.runid).map CachePod.pod := by
    intro p hp
    obtain ⟨hp, hname⟩ := List.mem_filter.mp hp
    exact h.fleet_of_prefix hc (hreply p hp) (of_decide_eq_true hname)
  have hnd : (listPodsByPrefix reply (podPrefix c.runid)).Nodup := hnd.filter _
  generalize listPodsByPrefix reply (podPrefix c.runid) = pods at *
  have hle : (s.fleet c.runid).length ≤ _ := length_fleet_le h.groups h.mem_groups c.runid
  have hperm : pods.Perm ((s.fleet c.runid).map CachePod.pod) := by
    refine (hnd.subperm hsub).perm_of_length_le ?_
    rw [List.length_map]
    omega
  refine ⟨?_, ?_⟩
  · have hlength := hperm.length_eq
    rw [List.length_map] at hlength
    omega
  · have hids : (pods.map Pod.id).Perm ((s.fleet c.runid).map CachePod.id) := by
      have hmap := hperm.map Pod.id
      rwa [List.map_map] at hmap
    refine List.Perm.trans ?_ hids
    have hidsnd : (pods.map Pod.id).Nodup := by
      refine hids.nodup_iff.mpr ?_
      have hall := h.ids
      rw [PodAccount.listed, List.map_append, List.map_map] at hall
      exact (List.nodup_append.mp hall).1.sublist (List.filter_sublist.map _)
    have hmem : c.id ∈ pods.map Pod.id := by
      obtain ⟨p, hp, hid⟩ := hown
      exact hid ▸ List.mem_map_of_mem hp
    have hrest : discoverIds pods c.id = (pods.map Pod.id).erase c.id := by
      rw [hidsnd.erase_eq_filter, List.filter_map, discoverIds]
      exact congrArg _ (List.filter_congr fun p _ => Bool.eq_iff_iff.mpr (by simp))
    rw [hrest]
    exact (List.perm_cons_erase hmem).symm

theorem Meets.mono {ph : Phase} (h : T.Meets s c ph)
    (hknows : ∀ peers, T.Knows s c peers → T.Knows s' c peers) : T.Meets s' c ph := by
  cases ph with
  | listing => exact h
  | resolving => exact ⟨h.1, hknows _ h.2.1, h.2.2⟩
  | serving => exact h.imp fun peers hpeers => ⟨hknows peers hpeers.1, hpeers.2⟩
  | failed => exact h

/-- The entry point of one pod goes on. -/
theorem Inv.advance (h : T.Inv s) {id : Str} {next : Phase → Option Phase}
    (hstep : s.advance id next = some s') (hnext : ∀ c ∈ s.pods, c.id = id → ∀ ph ph',
      s.phase id = some ph → next ph = some ph' → T.Meets s c ph → T.Meets s c ph') :
    T.Inv s' := by
  obtain ⟨ph', hph', rfl⟩ := Option.map_eq_some_iff.mp hstep
  obtain ⟨ph, hph, hnext'⟩ := Option.bind_eq_some_iff.mp hph'
  refine ⟨h.ids, h.groups, h.mem_groups, h.others, fun c hc => ?_, h.urls⟩
  obtain ⟨old, hold, hmeets⟩ := h.phase c hc
  by_cases hid : c.id = id
  · refine ⟨ph', hid ▸ Function.update_self .., ?_⟩
    rw [hid, hph, Option.some_inj] at hold
    exact hnext c hc hid ph ph' hph hnext' (hold ▸ hmeets)
  · exact ⟨old, (Function.update_of_ne hid ..).trans hold, hmeets⟩

/-- A pod that lists. -/
theorem Inv.list (h : T.Inv s) {id : Str} {reply : List Pod} {late : Bool}
    (hreply : T.Reliable s (.list id reply late))
    (hstep : T.step s (.list id reply late) = some s') : T.Inv s' := by
  refine h.advance hstep fun c hc hid ph ph' _ hnext hmeets => ?_
  cases ph with
  | listing e =>
    simp only [Phase.list] at hnext
    split at hnext
    · next hready =>
      obtain rfl := Option.some.inj hnext
      obtain ⟨hown, hsize⟩ := hready
      rw [hmeets.ownId, hmeets.fleetPrefix] at hown ⊢
      rw [hmeets.fleetPrefix, hmeets.expected] at hsize
      refine ⟨hmeets, h.knows hc hreply.1 hreply.2 hown (by exact_mod_cast hsize), ?_⟩
      intro i a hi
      cases hi
    · obtain rfl := Option.some.inj hnext
      cases late with
      | false => exact hmeets
      | true => exact .inl (congrArg _ hmeets.fleetPrefix)
  | resolving | serving | failed => cases hnext

theorem addr_of_parse {ports : List PortInfo} {a : Str} (h : parseExternalAddr ports = some a) :
    ∃ p : PortInfo, a = p.addr := by
  obtain ⟨p, -, rfl⟩ := Option.map_eq_some_iff.mp h
  exact ⟨p, rfl⟩

/-- A pod that reads an address. -/
theorem Inv.ports (h : T.Inv s) {id : Str} {reply : List PortInfo}
    (hreply : T.Reliable s (.ports id reply)) (hstep : T.step s (.ports id reply) = some s') :
    T.Inv s' := by
  refine h.advance hstep fun c hc hid ph ph' hph hnext hmeets => ?_
  cases ph with
  | resolving e peers todo addrs =>
    cases todo with
    | nil => cases hnext
    | cons i todo =>
      obtain rfl := Option.some.inj hnext
      obtain ⟨he, hknows, haddrs⟩ := hmeets
      refine ⟨he, hknows, fun j a hj => ?_⟩
      rw [OrderedDict.get?_set] at hj
      by_cases hji : j = i
      · rw [if_pos hji, Option.some_inj] at hj
        have htells : T.Tells i reply := hreply i (by rw [hph]; rfl)
        exact ⟨hji ▸ htells a hj, addr_of_parse hj⟩
      · rw [if_neg hji] at hj
        exact haddrs j a hj
  | listing | serving | failed => cases hnext

/-- An environment that is assembled. -/
theorem serves_of_assembleEnv {c : CachePod} {e : Entry} (he : T.EntryOf c e) {peers : List Str}
    {addrs : OrderedDict Str (Option Str)}
    (haddrs : ∀ i a, addrs.get? i = some (some a) → a = T.addr i ∧ ∃ p : PortInfo, a = p.addr)
    {env : Environ} (h : assembleEnv e.ownId peers addrs e.token e.extra = .ok env) :
    T.Serves c peers (updated e.environ env) := by
  rw [assembleEnv, he.ownId] at h
  split at h
  · cases h
  · next hall =>
    have hread : ∀ i ∈ c.id :: peers, addressIn addrs i = T.addr i ∧
        ∃ p : PortInfo, T.addr i = p.addr := by
      intro i hi
      have hne : addressIn addrs i ≠ [] := by simpa using List.find?_eq_none.mp hall i hi
      rw [addressIn] at hne ⊢
      cases ha : addrs.get? i with
      | none => exact absurd (by rw [ha]; rfl) hne
      | some o =>
        cases o with
        | none => exact absurd (by rw [ha]; rfl) hne
        | some a =>
          obtain ⟨rfl, hp⟩ := haddrs i a ha
          exact ⟨rfl, hp⟩
    have hown := (hread c.id List.mem_cons_self).1
    have hpeers : peers.map (addressIn addrs) = peers.map T.addr :=
      List.map_congr_left fun i hi => (hread i (List.mem_cons_of_mem _ hi)).1
    rw [hown, hpeers] at h
    obtain rfl := Except.ok.inj h
    obtain ⟨hbase, hself, hjoined, htoken⟩ :=
      @configured_get? (T.addr c.id) e.token (peers.map T.addr) e.extra he.extra
    refine ⟨fun i hi => (hread i hi).2, ?_, ?_, ?_, ?_⟩
    · rw [get?_updated, hbase]
      rfl
    · rw [get?_updated, hself]
      rfl
    · rw [get?_updated, hjoined]
      rfl
    · -- without a secret the pod's own variable is left, which is empty as well
      rw [get?_updated, htoken, he.environ, he.token]
      by_cases hempty : T.token c.runid = []
      · rw [if_pos hempty]
        rfl
      · rw [if_neg hempty]
        rfl

/-- A pod at the end of a turn. -/
theorem Inv.assemble (h : T.Inv s) {id : Str} {late : Bool}
    (hstep : T.step s (.assemble id late) = some s') : T.Inv s' := by
  refine h.advance hstep fun c hc hid ph ph' _ hnext hmeets => ?_
  cases ph with
  | resolving e peers todo addrs =>
    cases todo with
    | cons i todo => cases hnext
    | nil =>
      obtain ⟨he, hknows, haddrs⟩ := hmeets
      simp only [Phase.assemble] at hnext
      cases henv : assembleEnv e.ownId peers addrs e.token e.extra with
      | ok env =>
        rw [henv] at hnext
        obtain rfl := Option.some.inj hnext
        exact ⟨peers, hknows, serves_of_assembleEnv he haddrs henv⟩
      | error err =>
        rw [henv] at hnext
        obtain rfl := Option.some.inj hnext
        cases late with
        | true =>
          rw [assembleEnv] at henv
          split at henv
          · next i hi => exact .inr ⟨i, (Except.error.inj henv).symm⟩
          · cases henv
        | false =>
          refine ⟨he, hknows, fun i a hi => ?_⟩
          cases hi
  | listing | serving | failed => cases hnext

/-- A new pod of a run.  No pod of the run is through with listing: they would be too many. -/
theorem Inv.add (h : T.Inv s) {d : CachePod} (hgroup : d.group ∈ T.groups d.runid)
    (hnew : ∀ c ∈ s.pods, ¬(c.runid = d.runid ∧ c.group = d.group))
    (hid : ∀ p ∈ s.listed, p.id ≠ d.id) {e : Entry} (he : T.EntryOf d e) :
    T.Inv { s with
      pods := s.pods ++ [d], phase := Function.update s.phase d.id (some (.listing e)) } := by
  have hgroups : ((s.pods ++ [d]).map fun c => (c.runid, c.group)).Nodup := by
    rw [List.map_append, List.map_singleton, List.nodup_append]
    refine ⟨h.groups, List.nodup_singleton _, fun x hx y hy hxy => ?_⟩
    obtain ⟨c, hc, rfl⟩ := List.mem_map.mp hx
    rw [List.mem_singleton.mp hy] at hxy
    exact hnew c hc ⟨congrArg Prod.fst hxy, congrArg Prod.snd hxy⟩
  have hmem : ∀ c ∈ s.pods ++ [d], c.group ∈ T.groups c.runid :=
    List.forall_mem_append.mpr ⟨h.mem_groups, List.forall_mem_singleton.mpr hgroup⟩
  refine ⟨?_, hgroups, hmem, h.others, List.forall_mem_append.mpr ⟨fun c hc => ?_, ?_⟩, h.urls⟩
  · have hperm : ((s.pods ++ [d]).map CachePod.pod ++ s.others).Perm (d.pod :: s.listed) := by
      rw [List.map_append, List.append_assoc]
      exact List.perm_middle
    refine (hperm.map Pod.id).nodup_iff.mpr (List.nodup_cons.mpr ⟨fun hin => ?_, h.ids⟩)
    obtain ⟨p, hp, hpid⟩ := List.mem_map.mp hin
    exact hid p hp hpid
  · have hne : c.id ≠ d.id := hid c.pod (List.mem_append_left _ (List.mem_map_of_mem hc))
    obtain ⟨ph, hph, hmeets⟩ := h.phase c hc
    refine ⟨ph, (Function.update_of_ne hne ..).trans hph, hmeets.mono fun peers hknows => ?_⟩
    by_cases hrun : d.runid = c.runid
    · have hle := length_fleet_le hgroups hmem c.runid
      have hlonger : ((s.pods ++ [d]).filter fun x => x.runid = c.runid).length =
          (s.fleet c.runid).length + 1 := by
        rw [List.filter_append, List.filter_cons_of_pos (by simpa using hrun), List.length_append]
        rfl
      have hfull := hknows.1
      omega
    · have hsame : ((s.pods ++ [d]).filter fun x => x.runid = c.runid) = s.fleet c.runid := by
        rw [List.filter_append, List.filter_cons_of_neg (by simpa using hrun)]
        exact List.append_nil _
      rw [Knows, PodAccount.fleet, hsame]
      exact hknows
  · refine List.forall_mem_singleton.mpr ⟨.listing e, Function.update_self .., he⟩

theorem Inv.create (h : T.Inv s) {runid group id : Str}
    (hid : T.Reliable s (.create runid group id))
    (hstep : T.step s (.create runid group id) = some s') : T.Inv s' := by
  simp only [Testbed.step] at hstep
  split at hstep
  · next hguard =>
    have hgroup : group ∈ T.groups runid := List.contains_iff_mem.mp hguard.1
    cases henv : T.environ runid id with
    | error err =>
      rw [henv] at hstep
      cases hstep
    | ok environ =>
      rw [henv] at hstep
      obtain ⟨e, hboot, he⟩ := @boot_eq T ⟨runid, group, id⟩ environ hgroup henv
      obtain rfl := Option.some.inj hstep
      rw [hboot]
      exact h.add (d := ⟨runid, group, id⟩) hgroup hguard.2 hid he
  · cases hstep

/-- What one call keeps. -/
theorem Inv.step (h : T.Inv s) {a : AccountAct} (ha : T.Reliable s a)
    (hstep : T.step s a = some s') : T.Inv s' := by
  cases a with
  | create runid group id => exact h.create ha hstep
  | list id reply late => exact h.list ha hstep
  | ports id reply => exact h.ports ha hstep
  | assemble id late => exact h.assemble hstep
  | other p =>
    obtain rfl := Option.some.inj hstep
    refine ⟨?_, h.groups, h.mem_groups, ?_, fun c hc => ?_, h.urls⟩
    · rw [PodAccount.listed, ← List.append_assoc, List.map_append, List.map_singleton]
      refine List.nodup_append.mpr ⟨h.ids, List.nodup_singleton _, fun x hx y hy hxy => ?_⟩
      obtain ⟨q, hq, rfl⟩ := List.mem_map.mp hx
      exact ha.1 q hq (hxy.trans (List.mem_singleton.mp hy))
    · exact List.forall_mem_append.mpr ⟨h.others, List.forall_mem_singleton.mpr ha.2⟩
    · obtain ⟨ph, hph, hmeets⟩ := h.phase c hc
      exact ⟨ph, hph, hmeets.mono fun _ hknows => hknows⟩
  | waitAddr c reply =>
    simp only [Testbed.step] at hstep
    split at hstep
    · obtain rfl := Option.some.inj hstep
      refine ⟨h.ids, h.groups, h.mem_groups, h.others, fun d hd => ?_, ?_⟩
      · obtain ⟨ph, hph, hmeets⟩ := h.phase d hd
        exact ⟨ph, hph, hmeets.mono fun _ hknows => hknows⟩
      · refine List.forall_mem_append.mpr ⟨h.urls, fun e he => ?_⟩
        obtain ⟨a, ha', rfl⟩ := Option.map_eq_some_iff.mp (Option.mem_toList.mp he)
        exact ha a ha'
    · cases hstep

theorem inv_start : T.Inv .start where
  ids := List.nodup_nil
  groups := List.nodup_nil
  mem_groups _ hc := absurd hc List.not_mem_nil
  others _ hp := absurd hp List.not_mem_nil
  phase _ hc := absurd hc List.not_mem_nil
  urls _ he := absurd he List.not_mem_nil

/-- The server of a pod knows its siblings. -/
theorem Serves.peers_perm (h : T.Inv s) (hc : c ∈ s.pods) {peers : List Str} {environ : Environ}
    (hknows : T.Knows s c peers) (hserves : T.Serves c peers environ)
    (haddr : ∀ d ∈ s.pods, T.addr d.id = T.addr c.id → d = c)
    (hcomma : ∀ d ∈ s.pods, ',' ∉ T.addr d.id) :
    (serverPeers environ).Perm
      (((s.fleet c.runid).filter (· ≠ c)).map fun d => GoString.ofStr (T.addr d.id)) := by
  have hfleet : (s.fleet c.runid).Nodup := (h.groups.of_map _).filter _
  have hmem : c ∈ s.fleet c.runid := mem_fleet.mpr ⟨hc, rfl⟩
  -- its own id is the first of those it has read the addresses of
  have hpeers : peers.Perm (((s.fleet c.runid).filter (· ≠ c)).map CachePod.id) := by
    have hself : (s.fleet c.runid).Perm (c :: (s.fleet c.runid).filter (· ≠ c)) := by
      have hfilter : (s.fleet c.runid).erase c = (s.fleet c.runid).filter (· ≠ c) := by
        rw [hfleet.erase_eq_filter]
        exact List.filter_congr fun d _ => Bool.eq_iff_iff.mpr (by simp)
      exact hfilter ▸ List.perm_cons_erase hmem
    exact (List.perm_cons _).mp (hknows.2.trans (hself.map CachePod.id))
  have hknown : ∀ i ∈ peers, ∃ d ∈ s.pods, d ≠ c ∧ d.id = i := by
    intro i hi
    obtain ⟨d, hd, rfl⟩ := List.mem_map.mp (hpeers.mem_iff.mp hi)
    obtain ⟨hd, hne⟩ := List.mem_filter.mp hd
    exact ⟨d, (mem_fleet.mp hd).1, of_decide_eq_true hne, rfl⟩
  have hself : ∀ a ∈ peers.map T.addr, decide (a ≠ T.addr c.id) = true := by
    intro a ha
    obtain ⟨i, hi, rfl⟩ := List.mem_map.mp ha
    obtain ⟨d, hd, hne, rfl⟩ := hknown i hi
    exact decide_eq_true fun heq => hne (haddr d hd heq)
  have hbase := hserves.known c.id List.mem_cons_self
  have hne : T.addr c.id ≠ [] := by
    obtain ⟨p, hp⟩ := hbase
    exact hp ▸ addr_ne_nil p
  have hjoin : getenv environ "PEERS" [] = [','].intercalate (peers.map T.addr) :=
    getenv_of_get? hserves.peers ((em _).symm.imp_right Eq.symm)
  rw [serverPeers, hjoin, getenv_of_get? hserves.selfUrl (.inl hne), parsePeers_join hbase,
    List.filter_eq_self.mpr hself, List.map_map]
  · have hmap := hpeers.map (GoString.ofStr ∘ T.addr)
    rwa [List.map_map] at hmap
  · intro a ha
    obtain ⟨i, hi, rfl⟩ := List.mem_map.mp ha
    exact hserves.known i (List.mem_cons_of_mem _ hi)
  · intro a ha
    obtain ⟨i, hi, rfl⟩ := List.mem_map.mp ha
    obtain ⟨d, hd, -, rfl⟩ := hknown i hi
    exact hcomma d hd

end Invariant

end Testbed

/-- **Full mesh.**  Whatever the order in which the controllers of any runs make their pods, the
pods list the account and read the addresses, and however much the listings leave out: the peers of
a server that has started are the other pods of its run, each at its own address; the server shares
the run's secret, and its base is the address that the controller gives to the clients. -/
theorem full_mesh (T : Testbed) {as : List AccountAct} {s : PodAccount}
    (hrun : exec T.step .start as = some s) (hapi : Along T.step T.Reliable .start as)
    (haddr : ∀ c ∈ s.pods, ∀ d ∈ s.pods, T.addr c.id = T.addr d.id → c = d)
    (hcomma : ∀ c ∈ s.pods, ',' ∉ T.addr c.id) {c : CachePod} (hc : c ∈ s.pods) {environ : Environ}
    (hserving : s.phase c.id = some (.serving environ)) :
    (s.fleet c.runid).length = (T.groups c.runid).length ∧
      (serverPeers environ).Perm
        (((s.fleet c.runid).filter (· ≠ c)).map fun d => GoString.ofStr (T.addr d.id)) ∧
      (∀ d ∈ s.pods, GoString.ofStr (T.addr d.id) ∈ serverPeers environ ↔
        d.runid = c.runid ∧ d ≠ c) ∧
      getenv environ "SHIM_AUTH_TOKEN" [] = T.token c.runid ∧
      ∀ def', getenv environ "PUBLIC_BASE" def' = T.addr c.id ∧
        ∀ url, (c, url) ∈ s.metricsUrls → url = getenv environ "PUBLIC_BASE" def' := by
  have h : T.Inv s := exec_invariant T.Inv (fun hI hok hstep => hI.step hok hstep)
    Testbed.inv_start hapi hrun
  obtain ⟨ph, hph, hmeets⟩ := h.phase c hc
  obtain rfl := Option.some.inj (hserving.symm.trans hph)
  obtain ⟨peers, hknows, hserves⟩ := hmeets
  have hperm := hserves.peers_perm h hc hknows (fun d hd => haddr d hd c hc) hcomma
  refine ⟨hknows.1, hperm, fun d hd => ?_, ?_, fun def' => ?_⟩
  · rw [hperm.mem_iff, List.mem_map]
    constructor
    · rintro ⟨x, hx, heq⟩
      obtain ⟨hx, hne⟩ := List.mem_filter.mp hx
      obtain ⟨hxs, hrunid⟩ := Testbed.mem_fleet.mp hx
      obtain rfl := haddr x hxs d hd (ofStr_injective heq)
      exact ⟨hrunid, of_decide_eq_true hne⟩
    · rintro ⟨hrunid, hne⟩
      exact ⟨d, List.mem_filter.mpr ⟨Testbed.mem_fleet.mpr ⟨hd, hrunid⟩, decide_eq_true hne⟩, rfl⟩
  · exact getenv_of_get? hserves.token ((em _).symm.imp_right Eq.symm)
  · have hbase : getenv environ "PUBLIC_BASE" def' = T.addr c.id := by
      refine getenv_of_get? hserves.publicBase (.inl ?_)
      obtain ⟨p, hp⟩ := hserves.known c.id List.mem_cons_self
      exact hp ▸ addr_ne_nil p
    exact ⟨hbase, fun url hurl => (h.urls _ hurl).trans hbase.symm⟩

/-- A run with two groups, whose pods `a` and `b` get an address each. -/
def twoPods : Testbed where
  digits := asciiDigits
  groups runid := if runid.length = 15 then [['A'], ['B']] else []
  groups_nodup runid := by
    by_cases h : runid.length = 15
    · rw [if_pos h]
      decide
    · rw [if_neg h]
      exact List.nodup_nil
  runid_length runid h := by_contra fun hne => h (if_neg hne)
  controller _ := .ofPairs [("RUNPOD_API_KEY".toList, ['k']), ("SHIM_AUTH_TOKEN".toList, ['t'])]
  image := .ofPairs [("PORT".toList, "8000".toList)]
  addr id := httpScheme ++ id ++ [':', '1']

/-- The port of a pod of `twoPods`. -/
def publicPort (id : Str) : PortInfo := ⟨some id, some true, some 8000, some 1, some "tcp".toList⟩

def Phase.isServing : Phase → Bool
  | .serving _ => true
  | _ => false

/-- The first pod lists before there is a second one. -/
theorem full_mesh_twoPods :
    ∃ s environ, exec twoPods.step .start
        [.create "20260918-120000".toList ['A'] ['a'],
          .list ['a'] [⟨['a'], "xet-cache-20260918-120000-A".toList⟩] false,
          .create "20260918-120000".toList ['B'] ['b'],
          .list ['a'] [⟨['b'], "xet-cache-20260918-120000-B".toList⟩,
            ⟨['a'], "xet-cache-20260918-120000-A".toList⟩] false,
          .ports ['a'] [publicPort ['a']], .ports ['a'] [], .assemble ['a'] false,
          .ports ['a'] [publicPort ['a']], .ports ['a'] [publicPort ['b']],
          .assemble ['a'] false] = some s ∧
      s.phase ['a'] = some (.serving environ) ∧
      serverPeers environ = [.ofStr "http://b:1".toList] := by
  obtain ⟨s, hs, h⟩ := exec_of_any twoPods.step .start
    [.create "20260918-120000".toList ['A'] ['a'],
      .list ['a'] [⟨['a'], "xet-cache-20260918-120000-A".toList⟩] false,
      .create "20260918-120000".toList ['B'] ['b'],
      .list ['a'] [⟨['b'], "xet-cache-20260918-120000-B".toList⟩,
        ⟨['a'], "xet-cache-20260918-120000-A".toList⟩] false,
      .ports ['a'] [publicPort ['a']], .ports ['a'] [], .assemble ['a'] false,
      .ports ['a'] [publicPort ['a']], .ports ['a'] [publicPort ['b']],
      .assemble ['a'] false]
    (fun s => s.pods = [⟨"20260918-120000".toList, ['A'], ['a']⟩,
      ⟨"20260918-120000".toList, ['B'], ['b']⟩] ∧ (s.phase ['a']).any Phase.isServing)
    (by decide +kernel)
  obtain ⟨hpods, hserving⟩ := of_decide_eq_true h
  obtain ⟨environ, henviron⟩ : ∃ environ, s.phase ['a'] = some (.serving environ) := by
    revert hserving
    cases hph : s.phase ['a'] with
    | none => exact fun hfalse => absurd hfalse Bool.false_ne_true
    | some ph =>
      cases ph with
      | serving environ => exact fun _ => ⟨environ, rfl⟩
      | listing | resolving | failed => exact fun hfalse => absurd hfalse Bool.false_ne_true
  refine ⟨s, environ, hs, henviron, ?_⟩
  obtain ⟨-, hpeers, -⟩ := full_mesh twoPods hs (by decide +kernel)
    (by rw [hpods]; decide +kernel) (by rw [hpods]; decide +kernel)
    (c := ⟨"20260918-120000".toList, ['A'], ['a']⟩) (by rw [hpods]; exact List.mem_cons_self) henviron
  rw [PodAccount.fleet, hpods] at hpeers
  exact List.perm_singleton.mp (hpeers.trans (by decide +kernel))

end XetDcCache
