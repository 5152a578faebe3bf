import Splice.FileTree
import Splice.Proofs.Step
import Splice.Proofs.Text

namespace Splice

theorem loop_toList (bytes : ByteArray) (i : Nat) (read : List UInt8) :
    ByteArray.toList.loop bytes i read = read.reverse ++ bytes.data.toList.drop i := by
  fun_induction ByteArray.toList.loop bytes i read with
  | case1 i read hi ih =>
    have hi : i < bytes.data.toList.length := hi
    have hget : bytes.get! i = bytes.data.toList[i] := getElem!_pos bytes.data i hi
    rw [ih, hget, List.drop_eq_getElem_cons hi, List.reverse_cons, List.append_assoc]
    rfl
  | case2 i read hi =>
    have hi : bytes.data.toList.length ≤ i := Nat.not_lt.mp hi
    rw [List.drop_eq_nil_of_le hi, List.append_nil]

theorem fromUTF8?_toUTF8 (text : String) :
    String.fromUTF8? ⟨text.toUTF8.toList.toArray⟩ = some text := by
  have hbytes : (⟨text.toUTF8.toList.toArray⟩ : ByteArray) = text.toByteArray := by
    rw [String.toUTF8_eq_toByteArray, ByteArray.toList, loop_toList]
    rfl
  rw [hbytes, String.fromUTF8?, dif_pos text.isValidUTF8]
  rfl

section

variable {σ α β : Type}

theorem bind_apply (x : StateM σ α) (f : α → StateM σ β) (s : σ) :
    (x >>= f) s = f (x s).1 (x s).2 :=
  rfl

theorem pure_apply (a : α) (s : σ) : (pure a : StateM σ α) s = (a, s) :=
  rfl

theorem get_apply (s : σ) : (get : StateM σ σ) s = (s, s) :=
  rfl

theorem set_apply (s s' : σ) : (set s' : StateM σ PUnit) s = (⟨⟩, s') :=
  rfl

end

namespace Path

def IsPlain (name : String) : Prop :=
  '/' ∉ name.toList

instance (name : String) : Decidable (IsPlain name) :=
  inferInstanceAs (Decidable ('/' ∉ name.toList))

theorem split_of_isPlain {name : String} (h : IsPlain name) :
    Text.split (· == '/') name.toList = [name.toList] :=
  Text.split_of_forall_not fun _ hc => beq_eq_false_iff_ne.mpr fun heq => h (heq ▸ hc)

theorem isAbsolute_of_isPlain {name : String} (h : IsPlain name) : isAbsolute name = false :=
  decide_eq_false fun heq => h (List.mem_of_mem_head? heq)

theorem parts_of_isPlain {name : String} (h : IsPlain name) : parts name = [name] := by
  rw [parts, split_of_isPlain h, List.map_singleton, String.ofList_toList]

theorem parts_concat {path name : String} {front : List Char} (h : IsPlain name)
    (hpath : path.toList = front ++ '/' :: name.toList) :
    parts path = (Text.split (· == '/') front).map String.ofList ++ [name] := by
  rw [parts, hpath, Text.split_append_cons rfl, List.map_append, ← parts, parts_of_isPlain h]

theorem isAbsolute_append {path directory : String} {rest : List Char} (h : directory.toList ≠ [])
    (hpath : path.toList = directory.toList ++ rest) :
    isAbsolute path = isAbsolute directory := by
  rw [isAbsolute, isAbsolute, hpath, List.head?_append, List.head?_eq_some_head h, Option.some_or]

-- What is joined to a directory is the last part of the path. The parts before it are those of the
-- directory, which also says where the path starts.
theorem exists_join (directory : String) :
    ∃ front absolute, ∀ name, IsPlain name →
      parts (join directory name) = front ++ [name] ∧
        isAbsolute (join directory name) = absolute := by
  have hhead {name : String} (h : IsPlain name) : name.toList.head? ≠ some '/' :=
    fun heq => h (List.mem_of_mem_head? heq)
  by_cases hempty : directory = ""
  case pos =>
    refine ⟨[], false, fun name h => ?_⟩
    have hjoin : join directory name = name := by simp [join, hempty]
    rw [hjoin, parts_of_isPlain h, isAbsolute_of_isPlain h]
    exact ⟨rfl, rfl⟩
  have hne : directory.toList ≠ [] := fun h => hempty (String.toList_eq_nil_iff.mp h)
  by_cases hslash : directory.toList.getLast? = some '/'
  case pos =>
    obtain ⟨front, hfront⟩ := List.getLast?_eq_some_iff.mp hslash
    refine ⟨(Text.split (· == '/') front).map String.ofList, isAbsolute directory,
      fun name h => ?_⟩
    have hjoin : join directory name = directory ++ name := by
      simp [join, hhead h, hempty, hslash]
    have hpath : (join directory name).toList = directory.toList ++ name.toList := by
      rw [hjoin, String.toList_append]
    exact ⟨parts_concat h (by rw [hpath, hfront, List.append_assoc]; rfl),
      isAbsolute_append hne hpath⟩
  case neg =>
    refine ⟨parts directory, isAbsolute directory, fun name h => ?_⟩
    have hjoin : join directory name = directory ++ "/" ++ name := by
      simp [join, hhead h, hempty, hslash]
    have hpath : (join directory name).toList = directory.toList ++ '/' :: name.toList := by
      rw [hjoin, String.toList_append, String.toList_append, List.append_assoc]
      rfl
    exact ⟨parts_concat h hpath, isAbsolute_append hne hpath⟩

end Path

namespace FileTree

variable {t t' t'' : FileTree} {place : List String} {node : Node}

theorem node?_of_isStanding (h : isStanding place) : t.node? place = some .directory := by
  rw [node?, if_pos h]

theorem node?_put (h : t.node? place ≠ some .directory) (other : List String) :
    (t.put place node).node? other = if other = place then some node else t.node? other := by
  have hplace : ¬isStanding place := fun hstanding => h (node?_of_isStanding hstanding)
  split
  case isTrue heq =>
    subst heq
    simp [node?, hplace, put]
  case isFalse hne =>
    have hkey : (fun entry : List String × Node => !decide (entry.1 = place) && entry.1 = other) =
        fun entry => decide (entry.1 = other) := by
      funext entry
      by_cases heq : entry.1 = other <;> simp [heq, hne]
    simp [node?, put, Ne.symm hne, hkey]

theorem node?_eq_some_of_kept (h : t'.node? place = t.node? place ∨
    t.node? place = none ∧ t'.node? place = some .directory) (hnode : t.node? place = some node) :
    t'.node? place = some node := by
  rcases h with hsame | ⟨hnone, -⟩
  case inl => rw [hsame, hnode]
  case inr => cases hnone.symm.trans hnode

-- Nothing is lost from a tree, and whatever is new is a directory.
def Grows (t t' : FileTree) : Prop :=
  ∀ place, t'.node? place = t.node? place ∨
    t.node? place = none ∧ t'.node? place = some .directory

theorem Grows.refl (t : FileTree) : Grows t t :=
  fun _ => .inl rfl

theorem Grows.trans (h : Grows t t') (h' : Grows t' t'') : Grows t t'' := by
  intro place
  rcases h place with hsame | ⟨hnone, hnew⟩
  case inl => exact hsame ▸ h' place
  case inr => exact .inr ⟨hnone, node?_eq_some_of_kept (h' place) hnew⟩

theorem grows_put (h : t.node? place = none) : Grows t (t.put place .directory) := by
  intro other
  rw [node?_put (by simp [h])]
  split
  case isTrue heq => exact .inr ⟨heq ▸ h, rfl⟩
  case isFalse => exact .inl rfl

theorem grows_of_createDirectory {path : String} (h : t.createDirectory path = .ok t') :
    Grows t t' := by
  obtain ⟨_, _, h⟩ := bind_eq_ok_iff.mp h
  obtain ⟨place, _, h⟩ := bind_eq_ok_iff.mp h
  split at h
  case h_1 => cases h
  case h_2 hnone =>
    cases h
    exact grows_put hnone

theorem grows_createAll (t : FileTree) (paths : List String) :
    Grows t (t.createAll paths).2 := by
  induction paths generalizing t with
  | nil => exact .refl t
  | cons path above ih =>
    have haccept (t : FileTree) (fault : FileFault) : Grows t
        (if t.isDirectory path then (Except.ok (), t) else (Except.error fault, t)).2 := by
      split <;> exact .refl t
    rw [createAll]
    split
    case isTrue => exact .refl t
    split
    case h_1 hmade => exact grows_of_createDirectory hmade
    case h_2 =>
      have habove := ih t
      split
      case h_1 hmade =>
        rw [hmade] at habove
        exact habove
      case h_2 hmade =>
        rw [hmade] at habove
        split
        case h_1 hcreated => exact habove.trans (grows_of_createDirectory hcreated)
        case h_2 => exact habove.trans (haccept _ _)
    case h_3 => exact haccept t _

def KeepsDirectories (t t' : FileTree) : Prop :=
  ∀ place, t.node? place = some .directory → t'.node? place = some .directory

theorem Grows.keepsDirectories (h : Grows t t') : KeepsDirectories t t' :=
  fun place => node?_eq_some_of_kept (h place)

theorem keepsDirectories_put (h : t.node? place ≠ some .directory) :
    KeepsDirectories t (t.put place node) := by
  intro other hother
  have hne : other ≠ place := by
    rintro rfl
    exact h hother
  rw [node?_put h, if_neg hne, hother]

theorem KeepsDirectories.walk_eq_ok (h : KeepsDirectories t t') {here : List String}
    {parts : List String} (hwalk : t.walk here parts = .ok place) :
    t'.walk here parts = .ok place := by
  fun_induction walk t here parts with
  | case1 here => exact hwalk
  | case2 here part rest hstay ih => simp [walk, hstay, ih hwalk]
  | case3 here rest hstay ih => simp [walk, ih hwalk]
  | case4 | case7 | case8 => cases hwalk
  | case5 here part hstay hup hshort => simp [walk, hstay, hup, hshort, hwalk]
  | case6 here part rest hstay hup hshort hdirectory _ ih =>
    simp [walk, hstay, hup, hshort, h _ hdirectory, ih hwalk]

theorem KeepsDirectories.place_eq_ok (h : KeepsDirectories t t') {path : String}
    (hplace : t.place path = .ok place) : t'.place path = .ok place := by
  obtain ⟨_, hpath, hwalk⟩ := bind_eq_ok_iff.mp hplace
  exact bind_eq_ok_iff.mpr ⟨_, hpath, h.walk_eq_ok hwalk⟩

structure IsName (part : String) : Prop where
  stays : ¬(part = "" ∨ part = ".")
  leads : part ≠ ".."

theorem walk_cons_cases (t : FileTree) (here : List String) (part : String) :
    (∃ next, ∀ rest, rest ≠ [] → t.walk here (part :: rest) = t.walk next rest) ∨
      ∃ fault, ∀ rest, rest ≠ [] → t.walk here (part :: rest) = .error fault := by
  by_cases hstay : part = "" ∨ part = "."
  case pos => exact .inl ⟨here, by simp [walk, hstay]⟩
  by_cases hup : part = ".."
  case pos => exact .inl ⟨parent here, by simp [walk, hup]⟩
  by_cases hlong : 255 < part.utf8ByteSize
  case pos => exact .inr ⟨.longName, by simp [walk, hstay, hup, hlong]⟩
  cases hnode : t.node? (here ++ [part]) with
  | none => exact .inr ⟨.noEntry, by simp +contextual [walk, hstay, hup, hlong, hnode]⟩
  | some node =>
    cases node with
    | file => exact .inr ⟨.notDirectory, by simp +contextual [walk, hstay, hup, hlong, hnode]⟩
    | directory =>
      exact .inl ⟨here ++ [part], by simp +contextual [walk, hstay, hup, hlong, hnode]⟩

theorem exists_walk_concat (t : FileTree) (here front : List String) :
    ∃ directory, ∀ name place, IsName name → t.walk here (front ++ [name]) = .ok place →
      place = directory ++ [name] := by
  induction front generalizing here with
  | nil =>
    refine ⟨here, fun name place hname hwalk => ?_⟩
    simp only [List.nil_append, walk, if_neg hname.stays, if_neg hname.leads] at hwalk
    split at hwalk
    case isTrue => cases hwalk
    case isFalse => exact (Except.ok.inj hwalk).symm
  | cons part front ih =>
    rcases t.walk_cons_cases here part with ⟨next, hnext⟩ | ⟨fault, hfault⟩
    case inl =>
      obtain ⟨directory, hdirectory⟩ := ih next
      refine ⟨directory, fun name place hname hwalk => hdirectory name place hname ?_⟩
      rwa [List.cons_append, hnext _ (by simp)] at hwalk
    case inr =>
      refine ⟨[], fun name place _ hwalk => ?_⟩
      rw [List.cons_append, hfault _ (by simp)] at hwalk
      cases hwalk

theorem exists_place_join (t : FileTree) (directory : String) :
    ∃ front, ∀ name place, Path.IsPlain name → IsName name →
      t.place (Path.join directory name) = .ok place → place = front ++ [name] := by
  obtain ⟨parts, absolute, hjoin⟩ := Path.exists_join directory
  obtain ⟨front, hfront⟩ := t.exists_walk_concat (if absolute then ["/"] else []) parts
  refine ⟨front, fun name place hplain hname hplace => hfront name place hname ?_⟩
  obtain ⟨hparts, habsolute⟩ := hjoin name hplain
  obtain ⟨_, _, hwalk⟩ := bind_eq_ok_iff.mp hplace
  rwa [start, hparts, habsolute] at hwalk

section

variable {path : String} {bytes : List UInt8}

theorem read_eq_ok_iff : t.read path = .ok bytes ↔
    ∃ place, t.place path = .ok place ∧ t.node? place = some (.file bytes) := by
  rw [read]
  cases hplace : t.place path with
  | error => simp [bind, Except.bind]
  | ok place =>
    cases hnode : t.node? place with
    | none => simp [bind, Except.bind, hnode]
    | some node => cases node <;> simp [bind, Except.bind, pure, Except.pure, hnode]

theorem write_eq_ok_iff : t.write path bytes = .ok t' ↔
    ∃ place, t.place path = .ok place ∧ t.node? place ≠ some .directory ∧
      t.put place (.file bytes) = t' := by
  rw [write]
  cases hplace : t.place path with
  | error => simp [bind, Except.bind]
  | ok place =>
    cases hnode : t.node? place with
    | none => simp [bind, Except.bind, pure, Except.pure, hnode]
    | some node => cases node <;> simp [bind, Except.bind, pure, Except.pure, hnode]

theorem Grows.read_eq_ok (h : Grows t t') (hread : t.read path = .ok bytes) :
    t'.read path = .ok bytes := by
  obtain ⟨place, hplace, hnode⟩ := read_eq_ok_iff.mp hread
  exact read_eq_ok_iff.mpr ⟨place, h.keepsDirectories.place_eq_ok hplace,
    node?_eq_some_of_kept (h place) hnode⟩

theorem grows_createDirectories (t : FileTree) (path : String) :
    Grows t (t.createDirectories path).2 :=
  grows_createAll t _

-- A file is written to a place that is no directory. All else is as it was, but that directories
-- may have been made.
structure Stores (t t' : FileTree) (place : List String) (bytes : List UInt8) : Prop where
  free    : t.node? place ≠ some .directory
  written : t'.node? place = some (.file bytes)
  kept    : ∀ other, other ≠ place →
    t'.node? other = t.node? other ∨ t.node? other = none ∧ t'.node? other = some .directory

theorem Stores.keepsDirectories (h : Stores t t' place bytes) : KeepsDirectories t t' := by
  intro other hother
  have hne : other ≠ place := by
    rintro rfl
    exact h.free hother
  exact node?_eq_some_of_kept (h.kept other hne) hother

theorem exists_stores_of_write (hgrows : Grows t t') (h : t'.write path bytes = .ok t'') :
    ∃ place, t''.place path = .ok place ∧ Stores t t'' place bytes := by
  obtain ⟨place, hplace, hfree, rfl⟩ := write_eq_ok_iff.mp h
  refine ⟨place, (keepsDirectories_put hfree).place_eq_ok hplace,
    fun hdirectory => hfree (hgrows.keepsDirectories place hdirectory), ?_, fun other hne => ?_⟩
  · rw [node?_put hfree, if_pos rfl]
  · rw [node?_put hfree, if_neg hne]
    exact hgrows other

theorem Stores.read_eq_ok (h : Stores t t' place bytes) {directory name other : String}
    (hplace : t'.place (Path.join directory name) = .ok place) (hplain : Path.IsPlain name)
    (hname : IsName name) (hplain' : Path.IsPlain other) (hname' : IsName other)
    (hne : other ≠ name) {old : List UInt8} (hread : t.read (Path.join directory other) = .ok old) :
    t'.read (Path.join directory other) = .ok old := by
  obtain ⟨place', hplace', hnode⟩ := read_eq_ok_iff.mp hread
  have hplace' := h.keepsDirectories.place_eq_ok hplace'
  have hne : place' ≠ place := by
    obtain ⟨front, hfront⟩ := t'.exists_place_join directory
    rw [hfront _ _ hplain hname hplace, hfront _ _ hplain' hname' hplace']
    simpa using hne
  exact read_eq_ok_iff.mpr ⟨place', hplace', node?_eq_some_of_kept (h.kept place' hne) hnode⟩

theorem readText_of_error {fault : FileFault} (h : t.read path = .error fault) :
    FileAccess.readText (m := StateM FileTree) path t = (.error fault, t) := by
  simp only [FileAccess.readText, FileAccess.read, bind_apply, get_apply, pure_apply, h]

theorem readText_of_ok (h : t.read path = .ok bytes) :
    FileAccess.readText (m := StateM FileTree) path t =
      (match String.fromUTF8? ⟨bytes.toArray⟩ with
        | none => .error .notText
        | some text => .ok text.toList, t) := by
  simp only [FileAccess.readText, FileAccess.read, bind_apply, get_apply, pure_apply, h]
  cases String.fromUTF8? ⟨bytes.toArray⟩ <;> rfl

theorem readText_of_text {text : String} (h : t.read path = .ok text.toUTF8.toList) :
    FileAccess.readText (m := StateM FileTree) path t = (.ok text.toList, t) := by
  rw [readText_of_ok h, fromUTF8?_toUTF8]

theorem exists_readText_eq (t : FileTree) (path : String) :
    ∃ answer, FileAccess.readText (m := StateM FileTree) path t = (answer, t) := by
  cases h : t.read path with
  | error => exact ⟨_, readText_of_error h⟩
  | ok => exact ⟨_, readText_of_ok h⟩

theorem writeText_eq (t : FileTree) (path text : String) :
    FileAccess.writeText (m := StateM FileTree) path text t =
      match t.write path text.toUTF8.toList with
      | .error fault => (.error fault, t)
      | .ok t => (.ok (), t) := by
  cases h : t.write path text.toUTF8.toList <;>
    simp only [FileAccess.writeText, FileAccess.write, bind_apply, get_apply, set_apply, pure_apply,
      h]

end

end FileTree

end Splice
