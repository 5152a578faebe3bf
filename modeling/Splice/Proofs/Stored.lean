import Splice.Injection.Stored
import Splice.Proofs.Documents
import Splice.Proofs.FileTree
import Splice.Proofs.Rewriting

namespace Splice

theorem size_lt_of_inject {init deployed : List UInt8} {prelude : Prelude} {suffix : Nat}
    {out : Injection} (h : inject init deployed prelude suffix = .ok out) :
    prelude.size < 2 ^ 64 := by
  obtain ⟨_, _, t₃, hi⟩ := injected_of_inject h
  obtain ⟨ins, _, hop, _, _, hafter⟩ := hi.front_raised.1.raised _ List.mem_cons_self
  have hwidth : ins.op.width ≤ 8 := by
    rcases hop with hop | hop <;> simp [hop, Opcode.width]
  have hlength : (window t₃.code out.layout.lengthPc ins.op.width).length ≤ 8 :=
    Nat.le_trans (List.length_take_le ..) hwidth
  calc
    prelude.size
      ≤ ins.value + prelude.size := Nat.le_add_left ..
    _ = BigEndian.value (window t₃.code out.layout.lengthPc ins.op.width) := hafter.symm
    _ < BigEndian.bound _ := BigEndian.value_lt _
    _ ≤ BigEndian.bound 8 := BigEndian.bound_le_bound hlength
    _ = 2 ^ 64 := by decide

theorem Prelude.ofText_trim (text : List Char) :
    ofText (Text.trim text) = ofText text := by
  simp [ofText, Hex.decodeMarked]

namespace Store

variable {s : Store} {name : String} {t : FileTree}

theorem load_of_readText {answer : Except FileFault (List Char)}
    (h : FileAccess.readText (m := StateM FileTree) (s.artifactPath name) t = (answer, t)) :
    s.load (m := StateM FileTree) name t =
      (match answer with
        | .error fault => .error (.unreadable (s.artifactPath name) fault)
        | .ok text => Artifact.parse text, t) := by
  simp only [load, bind_apply, h]
  cases answer <;> rfl

theorem isPlain_file (h : Path.IsPlain name) : Path.IsPlain (name ++ ".json") := by
  rw [Path.IsPlain, String.toList_append, List.mem_append]
  exact not_or.mpr ⟨h, by decide⟩

theorem isName_file (name : String) : FileTree.IsName (name ++ ".json") := by
  have hne {other : String} (h : other.toList.length < 5) : name ++ ".json" ≠ other := by
    rintro rfl
    simp only [String.toList_append, List.length_append] at h
    exact absurd (Nat.lt_of_le_of_lt (Nat.le_add_left ..) h) (by decide)
  exact ⟨not_or.mpr ⟨hne (by decide), hne (by decide)⟩, hne (by decide)⟩

theorem exists_load_eq (s : Store) (name : String) (t : FileTree) :
    ∃ answer, s.load (m := StateM FileTree) name t = (answer, t) := by
  have ⟨_, h⟩ := t.exists_readText_eq (s.artifactPath name)
  exact ⟨_, load_of_readText h⟩

def content (record : Record) : List UInt8 :=
  record.toJson.pretty.toUTF8.toList

theorem content_inj {r r' : Record} (h : r.preludeSize < 2 ^ 64) (h' : r'.preludeSize < 2 ^ 64)
    (heq : content r = content r') : r = r' := by
  have htext : r.toJson.pretty = r'.toJson.pretty := by
    have hbytes := fromUTF8?_toUTF8 r.toJson.pretty
    rw [show r.toJson.pretty.toUTF8.toList = r'.toJson.pretty.toUTF8.toList from heq,
      fromUTF8?_toUTF8] at hbytes
    exact (Option.some.inj hbytes).symm
  have hread := r.parse?_write h (some 0)
  rw [String.ofList_inj.mp htext, r'.parse?_write h' (some 0)] at hread
  exact (Option.some.inj hread).symm

theorem persist_eq (s : Store) (record : Record) (t : FileTree) :
    s.persist (m := StateM FileTree) record t =
      match t.createDirectories s.outputDir with
      | (.error fault, t) => (.error (.unwritable s.outputDir fault), t)
      | (.ok (), t) =>
        match t.write (s.recordPath record.contractName) (content record) with
        | .error fault => (.error (.unwritable (s.recordPath record.contractName) fault), t)
        | .ok t => (.ok (s.recordPath record.contractName), t) := by
  have hmake : FileAccess.createDirectories (m := StateM FileTree) s.outputDir t =
      t.createDirectories s.outputDir := rfl
  simp only [persist, bind_apply, hmake]
  rcases t.createDirectories s.outputDir with ⟨_ | _, t⟩
  case error => rfl
  case ok =>
    simp only [bind_apply, FileTree.writeText_eq, content]
    cases t.write (s.recordPath record.contractName) record.toJson.pretty.toUTF8.toList <;> rfl

end Store

namespace Injection.Stored

inductive Refused (c : Config) (name text : String) (t : FileTree) : Error → Prop
  | prelude {e : Error} (h : Prelude.ofText text.toList = .error e) : Refused c name text t e
  | artifact {e : Error} {p : Prelude} (hprelude : Prelude.ofText text.toList = .ok p)
      (h : (store c).load (m := StateM FileTree) name t = (.error e, t)) : Refused c name text t e
  | injection {e : Error} {p : Prelude} {a : Artifact}
      (hprelude : Prelude.ofText text.toList = .ok p)
      (hload : (store c).load (m := StateM FileTree) name t = (.ok a, t))
      (h : inject a.bytecode a.deployedBytecode p c.metadataSuffix = .error e) :
      Refused c name text t e

structure Prepared (c : Config) (name text : String) (t : FileTree) (a : Artifact) (p : Prelude)
    (i : Injection) : Prop where
  parsed   : Prelude.ofText text.toList = .ok p
  loaded   : (store c).load (m := StateM FileTree) name t = (.ok a, t)
  injected : inject a.bytecode a.deployedBytecode p c.metadataSuffix = .ok i

-- Runs one after the other, each for an artifact that bears another name than the given one.
inductive RunsApart (c : Config) (other : String) : FileTree → FileTree → Prop
  | refl (t) : RunsApart c other t t
  | run {name text t t' t'' answer}
      (h : splice (m := StateM FileTree) c name text t = (answer, t'))
      (apart : ∀ a p i, Prepared c name text t a p i →
        Path.IsPlain a.contractName ∧ a.contractName ≠ other)
      (hrest : RunsApart c other t' t'') : RunsApart c other t t''

section

variable {c : Config} {name text : String} {t t' : FileTree} {a : Artifact} {p : Prelude}
  {i : Injection} {e : Error}

theorem splice_of_refused (h : Refused c name text t e) :
    splice (m := StateM FileTree) c name text t = (.error e, t) := by
  cases h with
  | prelude h => simp only [splice, h, pure_apply]
  | artifact hprelude h => simp only [splice, hprelude, bind_apply, h, pure_apply]
  | injection hprelude hload h =>
    simp only [splice, hprelude, bind_apply, hload, h, pure_apply]

theorem refused_or_prepared (c : Config) (name text : String) (t : FileTree) :
    (∃ e, Refused c name text t e) ∨ ∃ a p i, Prepared c name text t a p i := by
  cases hprelude : Prelude.ofText text.toList with
  | error e => exact .inl ⟨e, .prelude hprelude⟩
  | ok p =>
    obtain ⟨answer, hload⟩ := (store c).exists_load_eq name t
    cases answer with
    | error e => exact .inl ⟨e, .artifact hprelude hload⟩
    | ok a =>
      cases h : inject a.bytecode a.deployedBytecode p c.metadataSuffix with
      | error e => exact .inl ⟨e, .injection hprelude hload h⟩
      | ok i => exact .inr ⟨a, p, i, hprelude, hload, h⟩

theorem splice_of_prepared (h : Prepared c name text t a p i) :
    splice (m := StateM FileTree) c name text t =
      if c.persist then
        match (store c).persist (m := StateM FileTree) (record a text p i) t with
        | (.error e, t') => (.error e, t')
        | (.ok path, t') => (.ok (i, some path), t')
      else (.ok (i, none), t) := by
  simp only [splice, h.parsed, bind_apply, h.loaded, h.injected]
  split
  case isTrue =>
    simp only [bind_apply]
    rcases (store c).persist (m := StateM FileTree) (record a text p i) t with ⟨_ | _, t⟩ <;> rfl
  case isFalse => rfl

theorem splice_of_write (h : Prepared c name text t a p i) (hon : c.persist = true)
    {made : FileTree} (hmade : t.createDirectories (store c).outputDir = (.ok (), made))
    (hwrite : made.write ((store c).recordPath a.contractName)
      (Store.content (record a text p i)) = .ok t') :
    splice (m := StateM FileTree) c name text t =
      (.ok (i, some ((store c).recordPath a.contractName)), t') := by
  have hwrite : made.write ((store c).recordPath (record a text p i).contractName)
      (Store.content (record a text p i)) = .ok t' := hwrite
  simp only [splice_of_prepared h, hon, if_true, Store.persist_eq, hmade, hwrite]
  rfl

-- What an injection leaves that is kept. One file is written, under the name that the artifact
-- bears, and it reads as a record of the injection.
structure Recorded (c : Config) (a : Artifact) (p : Prelude) (i : Injection) (t t' : FileTree) :
    Prop where
  stores : ∃ place bytes, t'.place ((store c).recordPath a.contractName) = .ok place ∧
    t.Stores t' place bytes
  reads  : ∃ text r, FileAccess.readText (m := StateM FileTree)
      ((store c).recordPath a.contractName) t' = (.ok text, t') ∧
    (Json.parse? text).bind Record.ofJson? = some r ∧
    Prelude.ofText r.prelude.toList = .ok p ∧ r.preludeSize = p.size ∧
    r.bytecode = i.initCode ∧ r.deployedBytecode = i.runtimeCode

theorem persist_cases {r : Record} {stored : Except Error String}
    (h : (store c).persist (m := StateM FileTree) r t = (stored, t')) :
    (∃ e, stored = .error e ∧ t.Grows t') ∨
      stored = .ok ((store c).recordPath r.contractName) ∧
        ∃ place, t'.place ((store c).recordPath r.contractName) = .ok place ∧
          t.Stores t' place (Store.content r) := by
  rw [Store.persist_eq] at h
  have hgrows := t.grows_createDirectories (store c).outputDir
  split at h
  case h_1 hmade =>
    cases h
    rw [hmade] at hgrows
    exact .inl ⟨_, rfl, hgrows⟩
  case h_2 hmade =>
    rw [hmade] at hgrows
    split at h
    case h_1 =>
      cases h
      exact .inl ⟨_, rfl, hgrows⟩
    case h_2 hwrite =>
      cases h
      exact .inr ⟨rfl, FileTree.exists_stores_of_write hgrows hwrite⟩

theorem recorded_of_stores (h : Prepared c name text t a p i) {place : List String}
    (hplace : t'.place ((store c).recordPath a.contractName) = .ok place)
    (hstores : t.Stores t' place (Store.content (record a text p i))) :
    Recorded c a p i t t' := by
  have hread := FileTree.read_eq_ok_iff.mpr ⟨place, hplace, hstores.written⟩
  refine ⟨⟨place, _, hplace, hstores⟩, ⟨_, record a text p i, FileTree.readText_of_text hread,
    ?_, ?_, rfl, rfl, rfl⟩⟩
  · rw [Json.pretty, String.toList_ofList]
    exact Record.parse?_write (size_lt_of_inject h.injected) _
  · rw [record, String.toList_ofList, Prelude.ofText_trim, h.parsed]

theorem exists_prepared_of_splice {path : Option String}
    (h : splice (m := StateM FileTree) c name text t = (.ok (i, path), t')) :
    ∃ a p, Prepared c name text t a p i ∧
      (c.persist = false → path = none ∧ t' = t) ∧
      (c.persist = true →
        path = some ((store c).recordPath a.contractName) ∧ Recorded c a p i t t') := by
  rcases refused_or_prepared c name text t with ⟨e, hrefused⟩ | ⟨a, p, i', hprepared⟩
  case inl =>
    rw [splice_of_refused hrefused] at h
    cases h
  case inr =>
    rw [splice_of_prepared hprepared] at h
    split at h
    case isTrue hon =>
      split at h
      case h_1 => cases h
      case h_2 hstored =>
        cases h
        rcases persist_cases hstored with ⟨_, hfailed, -⟩ | ⟨hpath, place, hplace, hstores⟩
        case inl => cases hfailed
        case inr =>
          refine ⟨a, p, hprepared, fun hoff => ?_, fun _ => ⟨congrArg some (Except.ok.inj hpath),
            recorded_of_stores hprepared hplace hstores⟩⟩
          simp [hon] at hoff
    case isFalse hoff =>
      cases h
      exact ⟨a, p, hprepared, fun _ => ⟨rfl, rfl⟩, fun hon => absurd hon hoff⟩

theorem read_of_persist {r : Record} {stored : Except Error String}
    (h : (store c).persist (m := StateM FileTree) r t = (stored, t')) {other : String}
    (hplain : Path.IsPlain r.contractName) (hplain' : Path.IsPlain other)
    (hne : r.contractName ≠ other) {bytes : List UInt8}
    (hread : t.read ((store c).recordPath other) = .ok bytes) :
    t'.read ((store c).recordPath other) = .ok bytes := by
  rcases persist_cases h with ⟨_, -, hgrows⟩ | ⟨-, place, hplace, hstores⟩
  case inl => exact hgrows.read_eq_ok hread
  case inr =>
    have hne : other ++ ".json" ≠ r.contractName ++ ".json" := by
      simpa [← String.toList_inj] using hne.symm
    exact hstores.read_eq_ok hplace (Store.isPlain_file hplain) (Store.isName_file _)
      (Store.isPlain_file hplain') (Store.isName_file other) hne hread

theorem read_of_splice {answer : Except Error (Injection × Option String)}
    (h : splice (m := StateM FileTree) c name text t = (answer, t')) {other : String}
    (hplain : Path.IsPlain other) (apart : ∀ a p i, Prepared c name text t a p i →
      Path.IsPlain a.contractName ∧ a.contractName ≠ other) {bytes : List UInt8}
    (hread : t.read ((store c).recordPath other) = .ok bytes) :
    t'.read ((store c).recordPath other) = .ok bytes := by
  rcases refused_or_prepared c name text t with ⟨e, hrefused⟩ | ⟨a, p, i, hprepared⟩
  case inl =>
    cases (splice_of_refused hrefused).symm.trans h
    exact hread
  case inr =>
    obtain ⟨hplain', hne⟩ := apart a p i hprepared
    rw [splice_of_prepared hprepared] at h
    split at h
    case isTrue =>
      split at h
      case h_1 hstored =>
        cases h
        exact read_of_persist hstored hplain' hplain hne hread
      case h_2 hstored =>
        cases h
        exact read_of_persist hstored hplain' hplain hne hread
    case isFalse =>
      cases h
      exact hread

theorem RunsApart.read_eq_ok {other : String} (h : RunsApart c other t t')
    (hplain : Path.IsPlain other) {bytes : List UInt8}
    (hread : t.read ((store c).recordPath other) = .ok bytes) :
    t'.read ((store c).recordPath other) = .ok bytes := by
  induction h with
  | refl => exact hread
  | run h apart _ ih => exact ih (read_of_splice h hplain apart hread)

end

-- Nothing is written unless all that comes before succeeds. What is written then is one file, a
-- record that goes by the name that the artifact bears, and it stays as it is when records of other
-- names are written.
theorem writes_all_or_nothing (c : Config) (name text : String) (t : FileTree) :
    (∀ e, Refused c name text t e →
      splice (m := StateM FileTree) c name text t = (.error e, t)) ∧
    (∀ i path t', splice (m := StateM FileTree) c name text t = (.ok (i, path), t') →
      ∃ a p, Prepared c name text t a p i ∧
        (c.persist = false → path = none ∧ t' = t) ∧
        (c.persist = true →
          path = some ((store c).recordPath a.contractName) ∧ Recorded c a p i t t')) ∧
    (∀ a p i, Prepared c name text t a p i →
      (c.persist = false → splice (m := StateM FileTree) c name text t = (.ok (i, none), t)) ∧
      (c.persist = true → ∀ made t', t.createDirectories c.outputDir = (.ok (), made) →
        made.write ((store c).recordPath a.contractName) (Store.content (record a text p i)) =
          .ok t' →
        splice (m := StateM FileTree) c name text t =
          (.ok (i, some ((store c).recordPath a.contractName)), t'))) ∧
    ∀ other, Path.IsPlain other → ∀ t', RunsApart c other t t' → ∀ bytes,
      t.read ((store c).recordPath other) = .ok bytes →
        t'.read ((store c).recordPath other) = .ok bytes := by
  refine ⟨fun e => splice_of_refused, fun i path t' => exists_prepared_of_splice,
    fun a p i h => ⟨fun hoff => ?_, fun hon made t' => splice_of_write h hon⟩,
    fun other hplain t' hruns bytes => hruns.read_eq_ok hplain⟩
  simp [splice_of_prepared h, hoff]

def nearby : Config where
  metadataSuffix := 2
  artifactDir := "in"
  outputDir := "out"
  persist := true

def inPlace : Config :=
  { nearby with outputDir := "in" }

def beta : Artifact :=
  ⟨"Beta", hopInit, hop⟩

def farBeta : Artifact :=
  ⟨"../out/Beta", hopInit, hop⟩

def twoFiles (alpha gamma : List UInt8) : FileTree where
  nodes := [
    (["in"], .directory), (["in", "Alpha.json"], .file alpha), (["in", "Gamma.json"], .file gamma)
  ]

def strays : FileTree :=
  twoFiles beta.toJson.compact.toUTF8.toList farBeta.toJson.compact.toUTF8.toList

theorem prepared_of_read {c : Config} {name text : String} {t : FileTree} {a : Artifact}
    {p : Prelude} {i : Injection} (hprelude : Prelude.ofText text.toList = .ok p)
    (hread : t.read ((store c).artifactPath name) = .ok a.toJson.compact.toUTF8.toList)
    (h : inject a.bytecode a.deployedBytecode p c.metadataSuffix = .ok i) :
    Prepared c name text t a p i := by
  have hparse : Artifact.parse a.toJson.compact.toList = .ok a := by
    rw [Json.compact, String.toList_ofList, a.parse_write]
  have hload := Store.load_of_readText (FileTree.readText_of_text hread)
  exact ⟨hprelude, hload.trans (congrArg (·, t) hparse), h⟩

def withRecord (alpha gamma bytes : List UInt8) : FileTree :=
  ((twoFiles alpha gamma).put ["out"] .directory).put ["out", "Beta.json"] (.file bytes)

theorem alpha_twoFiles (alpha gamma bytes : List UInt8) :
    (twoFiles alpha gamma).read "in/Alpha.json" = .ok alpha ∧
      (twoFiles alpha gamma).createDirectories "out" =
        (.ok (), (twoFiles alpha gamma).put ["out"] .directory) ∧
      ((twoFiles alpha gamma).put ["out"] .directory).write "out/Beta.json" bytes =
        .ok (withRecord alpha gamma bytes) :=
  ⟨rfl, rfl, rfl⟩

theorem gamma_withRecord (alpha gamma bytes bytes' : List UInt8) :
    (withRecord alpha gamma bytes).read "in/Gamma.json" = .ok gamma ∧
      (withRecord alpha gamma bytes).createDirectories "out" =
        (.ok (), withRecord alpha gamma bytes) ∧
      (withRecord alpha gamma bytes).write "out/../out/Beta.json" bytes' =
        .ok ((withRecord alpha gamma bytes).put ["out", "Beta.json"] (.file bytes')) :=
  ⟨rfl, rfl, rfl⟩

theorem beta_withRecord (alpha gamma bytes bytes' : List UInt8) :
    (withRecord alpha gamma bytes).read "out/Beta.json" = .ok bytes ∧
      ((withRecord alpha gamma bytes).put ["out", "Beta.json"] (.file bytes')).read
        "out/Beta.json" = .ok bytes' :=
  ⟨rfl, rfl⟩

theorem ofText_pushPop : Prelude.ofText "0x600050".toList = .ok ⟨[0x60, 0x00, 0x50]⟩ := by
  decide +kernel

theorem writes_all_or_nothing_strays :
    splice (m := StateM FileTree) nearby "Alpha" "600050" strays =
      (.error (.missingHexMark "600050"), strays) ∧
    (∃ a p i t', Prepared nearby "Alpha" "0x600050" strays a p i ∧
      splice (m := StateM FileTree) nearby "Alpha" "0x600050" strays =
        (.ok (i, some "out/Beta.json"), t') ∧
      Recorded nearby a p i strays t') ∧
    (splice (m := StateM FileTree) inPlace "Alpha" "0x600050" strays).2.read "in/Alpha.json" =
      .ok beta.toJson.compact.toUTF8.toList := by
  obtain ⟨i, hi, _⟩ := inject_hop
  obtain ⟨hread, hmade, hwrite⟩ := alpha_twoFiles beta.toJson.compact.toUTF8.toList
    farBeta.toJson.compact.toUTF8.toList
    (Store.content (record beta "0x600050" ⟨[0x60, 0x00, 0x50]⟩ i))
  have hprepared : Prepared nearby "Alpha" "0x600050" strays beta ⟨[0x60, 0x00, 0x50]⟩ i :=
    prepared_of_read ofText_pushPop hread hi
  have hrun := ((writes_all_or_nothing nearby "Alpha" "0x600050" strays).2.2.1 _ _ _ hprepared).2
    rfl _ _ hmade hwrite
  obtain ⟨a, p, h, -, hon⟩ :=
    (writes_all_or_nothing nearby "Alpha" "0x600050" strays).2.1 _ _ _ hrun
  have hprepared' : Prepared inPlace "Alpha" "0x600050" strays beta ⟨[0x60, 0x00, 0x50]⟩ i :=
    prepared_of_read ofText_pushPop hread hi
  have hrun' : splice (m := StateM FileTree) inPlace "Alpha" "0x600050" strays =
      ((splice (m := StateM FileTree) inPlace "Alpha" "0x600050" strays).1,
        (splice (m := StateM FileTree) inPlace "Alpha" "0x600050" strays).2) := (Prod.eta _).symm
  have hapart : RunsApart inPlace "Alpha" strays
      (splice (m := StateM FileTree) inPlace "Alpha" "0x600050" strays).2 := by
    refine .run hrun' (fun a p i h => ?_) (.refl _)
    cases h.loaded.symm.trans hprepared'.loaded
    exact ⟨by decide, by decide⟩
  exact ⟨(writes_all_or_nothing nearby "Alpha" "600050" strays).1 _ (.prelude rfl),
    ⟨a, p, i, _, h, hrun, (hon rfl).2⟩,
    (writes_all_or_nothing inPlace "Alpha" "0x600050" strays).2.2.2 "Alpha" (by decide) _ hapart
      _ hread⟩

-- The record goes by the name that the artifact bears, whatever the artifact is stored under, and
-- where such a name has slashes in it, another record may be lost.
theorem record_overwritten :
    ∃ i t₁ t₂, splice (m := StateM FileTree) nearby "Alpha" "0x600050" strays =
        (.ok (i, some "out/Beta.json"), t₁) ∧
      t₁.find? "out/Alpha.json" = none ∧
      splice (m := StateM FileTree) nearby "Gamma" "0x600050" t₁ =
        (.ok (i, some "out/../out/Beta.json"), t₂) ∧
      t₂.read "out/Beta.json" ≠ t₁.read "out/Beta.json" := by
  obtain ⟨i, hi, _⟩ := inject_hop
  let text (a : Artifact) := a.toJson.compact.toUTF8.toList
  let kept (a : Artifact) := Store.content (record a "0x600050" ⟨[0x60, 0x00, 0x50]⟩ i)
  obtain ⟨hread, hmade, hwrite⟩ := alpha_twoFiles (text beta) (text farBeta) (kept beta)
  obtain ⟨hread', hmade', hwrite'⟩ :=
    gamma_withRecord (text beta) (text farBeta) (kept beta) (kept farBeta)
  obtain ⟨hbeta, hbeta'⟩ := beta_withRecord (text beta) (text farBeta) (kept beta) (kept farBeta)
  have halpha : Prepared nearby "Alpha" "0x600050" strays beta ⟨[0x60, 0x00, 0x50]⟩ i :=
    prepared_of_read ofText_pushPop hread hi
  have hgamma : Prepared nearby "Gamma" "0x600050"
      (withRecord (text beta) (text farBeta) (kept beta)) farBeta ⟨[0x60, 0x00, 0x50]⟩ i :=
    prepared_of_read ofText_pushPop hread' hi
  refine ⟨i, _, _, splice_of_write halpha rfl hmade hwrite, rfl,
    splice_of_write hgamma rfl hmade' hwrite', fun heq => ?_⟩
  have hkept : kept farBeta = kept beta := Except.ok.inj (hbeta'.symm.trans (heq.trans hbeta))
  have hsize := size_lt_of_inject hi
  have hname : farBeta.contractName = beta.contractName :=
    congrArg Record.contractName (Store.content_inj hsize hsize hkept)
  exact absurd hname (by decide)

end Injection.Stored

end Splice
