/-
# The server of the testbed

What `main` does before its workers start and on every request: `load_config` of
`gen_config.cpp`, `init_markov` of `markov.c` and `gencb` of `main.c`. The tables
of the texts are arrays of `MARKOV_MAXFILES` elements, and an access past them is
a fault. Of the buffer of a page only the bytes are kept once its first room is there.
-/

import SearchTools.Common.MyConfig
import SearchTools.Libevent.Evbuffer
import SearchTools.Testbed.Generate

namespace SearchTools.Testbed

open SearchTools.Common SearchTools.Library SearchTools.Libevent

/-! ## The configuration -/

/-- The numbers of type `double` and what `load_config` does with them. Nothing is
assumed of them. -/
structure Doubles where
  Double : Type
  zero : Double
  one : Double
  tenth : Double
  hundredth : Double
  le : Double → Double → Bool
  lt : Double → Double → Bool
  atof : Bytes → Double
  /-- `(int)((double)RAND_MAX * p)`. -/
  scaled : Double → ℤ

/-- `struct GenConfig`. -/
structure GenConfig (δ : Type) where
  daemonPort : ℤ
  wordsPerPage : ℤ
  internLinks : ℤ
  externLinks : ℤ
  internLinksProbability : δ
  externLinksProbability : δ
  externLinksPrefix : Bytes
  externLinksSuffix : Bytes
  externLinksServers : ℤ
  linksTotal : ℤ
  workerThreads : ℤ

variable (D : Doubles)

/-- `load_defaults` on the static `config` of `main.c`, whose fields are zero. -/
def loadDefaults : GenConfig D.Double where
  daemonPort := 8083
  wordsPerPage := 1000
  internLinks := 0
  externLinks := 0
  internLinksProbability := D.zero
  externLinksProbability := D.zero
  externLinksPrefix := bytes "serv"
  externLinksSuffix := bytes ".testbed.local"
  externLinksServers := 1
  linksTotal := 100000
  workerThreads := 1

/-- The checks of `load_config` on the probability of internal links. Both are on
the same field. -/
def checkedProbability (p : D.Double) : D.Double :=
  let p := if D.le p D.zero || D.le D.one p then D.tenth else p
  if D.lt p D.zero || D.le D.one p then D.hundredth else p

/-- `load_config` on the contents of the file. -/
def loadConfig (file : Bytes) : GenConfig D.Double :=
  let conf := loadDefaults D
  let generator := bytes "generator"
  let c := configLoad file
  let (c, daemonPort) := configTrySetInt c generator (bytes "daemon_port") conf.daemonPort
  let (c, wordsPerPage) := configTrySetInt c generator (bytes "words_per_page") conf.wordsPerPage
  let (c, externLinksProbability) := configTrySetDouble D.atof c generator
    (bytes "extern_links_probability") conf.externLinksProbability
  let (c, internLinksProbability) := configTrySetDouble D.atof c generator
    (bytes "intern_links_probability") conf.internLinksProbability
  let (c, linksTotal) := configTrySetInt c generator (bytes "links_total") conf.linksTotal
  let (c, workerThreads) := configTrySetInt c generator (bytes "worker_threads") conf.workerThreads
  let (c, tmp1) := configTrySetStr c generator (bytes "extern_links_prefix") []
  let (c, tmp2) := configTrySetStr c generator (bytes "extern_links_suffix") []
  let (_, externLinksServers) := configTrySetInt c generator (bytes "extern_links_servers")
    conf.externLinksServers
  let renamed : Bool := tmp1 ≠ [] ∧ tmp2 = []
  let internLinksProbability := checkedProbability D internLinksProbability
  { daemonPort, wordsPerPage, internLinksProbability, externLinksProbability, linksTotal,
    workerThreads, externLinksServers
    externLinksPrefix := if renamed then tmp1 else conf.externLinksPrefix
    externLinksSuffix := if renamed then tmp2 else conf.externLinksSuffix
    internLinks := D.scaled internLinksProbability
    externLinks := D.scaled externLinksProbability }

/-! ## The texts -/

/-- `MARKOV_MAXFILES`. -/
def markovMaxfiles : ℕ := 100

/-- Whether `IDEAL_HASHING` is defined. -/
inductive Build
  | plain
  | ideal
  deriving DecidableEq, Repr

/-- The global variables of `markov.c`. -/
structure Markov where
  numStates : ℕ
  textState : List TextState
  idealState : List IdealState

/-- The globals when the program starts. -/
def Markov.zero : Markov where
  numStates := 0
  textState := List.replicate markovMaxfiles .empty
  idealState := List.replicate markovMaxfiles fun _ => none

/-- `sscanf(uri, "/%u.html", &seed)`. -/
def scanUri (uri : Bytes) : Option UInt32 :=
  match cstr uri with
  | 47 :: rest => scanUnsigned rest
  | _ => none

/-- The lookup in the text with the given index. -/
def Markov.find (m : Markov) (build : Build) (index : ℤ) :
    Except Fault (Prefix → Except Fault (Option State)) :=
  if index < 0 then .error .outOfBounds
  else
    match m.textState[index.toNat]?, m.idealState[index.toNat]? with
    | some t, some ideal =>
        match build with
        | .plain => .ok (plainLookup t)
        | .ideal => .ok (idealLookup t ideal)
    | _, _ => .error .outOfBounds

/-- What `gencb` has drawn when it calls `generate`. -/
structure Drawn where
  nwords : ℤ
  /-- The seed that it prints. -/
  title : UInt32
  index : ℤ
  seed : UInt32

/-- `evbuffer_expand(answer, nwords * 10)` on the new buffer of the page. The product is an
`int`, and what the call answers is not looked at. -/
def expandAnswer (malloc : Malloc) (nwords : ℤ) : Except Fault Unit := do
  let _ ← ({} : Evbuffer Unit).expand malloc.heap (intToSize (wrapInt (nwords * 10)))
  return ()

/-- The draws of `gencb`: the length of the page and, with the buffer expanded, the text. -/
def gencbDraw {δ : Type} (malloc : Malloc) (conf : GenConfig δ) (m : Markov) (now : UInt32)
    (uri : Bytes) : Except Fault Drawn := do
  let first := myRandR ((scanUri uri).getD now)
  let nwords ← cmod first.1 conf.wordsPerPage
  expandAnswer malloc nwords
  let second := myRandR first.2
  let index ← cmod second.1 m.numStates
  return ⟨nwords, first.2, index, second.2⟩

/-- The arguments of `generate`. -/
def GenConfig.genArgs {δ : Type} (conf : GenConfig δ) (nwords : ℤ) (lastDrawFirst : Bool) :
    GenArgs where
  nwords := nwords
  internLinks := conf.internLinks
  externLinks := conf.externLinks
  linksTotal := conf.linksTotal
  extPrefix := conf.externLinksPrefix
  extSuffix := conf.externLinksSuffix
  extServers := conf.externLinksServers
  lastDrawFirst := lastDrawFirst

/-- What `gencb` writes before the page. -/
def pageHead (title : UInt32) : Bytes :=
  bytes "<html><head></head><body>\n<title>" ++ decimal title.toNat ++ bytes "</title>\n"

/-- `gencb`: the answer to a request. `now` is the time, the seed of a request
without a number. -/
def gencb {δ : Type} (malloc : Malloc) (conf : GenConfig δ) (m : Markov) (build : Build)
    (lastDrawFirst : Bool) (now : UInt32) (uri : Bytes) : Except Fault Bytes := do
  let drawn ← gencbDraw malloc conf m now uri
  let find ← m.find build drawn.index
  let g ← generate (conf.genArgs drawn.nwords lastDrawFirst) find drawn.seed (pageHead drawn.title)
  return g.buf ++ bytes "</body></html>\n"

end SearchTools.Testbed
