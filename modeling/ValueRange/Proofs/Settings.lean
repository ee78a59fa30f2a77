import ValueRange.Proofs.Files
import ValueRange.Toml.Settings

/-! The nearest file decides about each setting on its own, whatever decoder reads the files, as
long as it reports the keys and values of a file. Loading reads the files of a directory and of all
directories above it, and what one file does not say is said by the next one above, or else by the
standard settings. -/

namespace ValueRange

/-- The settings by their names. -/
inductive Setting where
  | narrowing
  | bitWidth
  | interprocedural
  | workers
  | color
  | trace
  | format
deriving DecidableEq, Repr, Inhabited

namespace Setting

/-- The table of a file that holds a setting. -/
def table : Setting → String
  | narrowing | bitWidth | interprocedural | workers => "analysis"
  | color | trace | format => "output"

/-- The key of a setting in its table. -/
def key : Setting → String
  | narrowing => "narrowing"
  | bitWidth => "bit_width"
  | interprocedural => "interprocedural"
  | workers => "workers"
  | color => "color"
  | trace => "trace"
  | format => "format"

/-- The path of a setting in a file. -/
def path (k : Setting) : List String := [k.table, k.key]

end Setting

/-- A value of a setting. -/
inductive SettingValue where
  | text (s : String)
  | integer (n : Int)
  | boolean (b : Bool)
deriving DecidableEq, Repr, Inhabited

/-- The value of a setting. -/
def Settings.get (s : Settings) : Setting → SettingValue
  | .narrowing => .text s.narrowing
  | .bitWidth => .integer s.bitWidth
  | .interprocedural => .boolean s.interprocedural
  | .workers => .integer s.workers
  | .color => .text s.color
  | .trace => .boolean s.trace
  | .format => .text s.format

namespace Layer

/-- The value that a layer gives to a setting, if it defines it. -/
def get? (l : Layer) (k : Setting) : Option SettingValue :=
  if l.isDefined k.path then some (l.settings.get k) else none

/-- Merging decides about each setting on its own. -/
theorem get_merge (lower upper : Layer) (k : Setting) :
    (lower.merge upper).settings.get k = (upper.get? k).getD (lower.settings.get k) := by
  have hChoose {α : Type} (make : α → SettingValue) (part : Settings → α) (path : List String) :
      make (lower.choose upper path part) =
        (if upper.isDefined path then some (make (part upper.settings)) else none).getD
          (make (part lower.settings)) := by
    unfold choose
    split <;> rfl
  cases k <;> exact hChoose _ _ _

end Layer

namespace Settings

/-! ### Merging -/

section Reversal

variable {α : Type} (a : Array α)

theorem size_swapEnds (i : Nat) : (swapEnds a i).size = a.size := Array.size_swapIfInBounds

/-- The two entries that change places. -/
theorem getElem?_swapEnds {i : Nat} (hi : i < a.size / 2) (k : Nat) :
    (swapEnds a i)[k]? = if k = i ∨ k = a.size - 1 - i then a[a.size - 1 - k]? else a[k]? := by
  have hLeft : i < a.size := by omega
  have hRight : a.size - 1 - i < a.size := by omega
  unfold swapEnds Array.swapIfInBounds
  rw [dif_pos hLeft, dif_pos hRight, Array.getElem?_swap]
  by_cases hk : k = a.size - 1 - i
  · subst hk
    have hBack : a.size - 1 - (a.size - 1 - i) = i := by omega
    rw [if_pos rfl, if_pos (.inr rfl), hBack, Array.getElem?_eq_getElem hLeft]
  · rw [if_neg (Ne.symm hk)]
    by_cases hki : k = i
    · subst hki
      rw [if_pos rfl, if_pos (.inl rfl), Array.getElem?_eq_getElem hRight]
    · rw [if_neg (Ne.symm hki), if_neg (not_or.mpr ⟨hki, hk⟩)]

/-- After some swaps, the entries up to there have changed places with those at the other end. -/
theorem getElem?_foldl_swapEnds {n : Nat} (hn : n ≤ a.size / 2) :
    ((List.range n).foldl swapEnds a).size = a.size ∧
      ∀ k, ((List.range n).foldl swapEnds a)[k]? =
        if k < n ∨ a.size - n ≤ k ∧ k < a.size then a[a.size - 1 - k]? else a[k]? := by
  induction n with
  | zero =>
    refine ⟨rfl, fun k => ?_⟩
    rw [if_neg (by omega)]
    rfl
  | succ n ih =>
    obtain ⟨hSize, hEntry⟩ := ih (by omega)
    rw [List.range_succ, List.foldl_append, List.foldl_cons, List.foldl_nil]
    refine ⟨(size_swapEnds _ n).trans hSize, fun k => ?_⟩
    rw [getElem?_swapEnds _ (by omega), hSize, hEntry, hEntry]
    -- the entries that change places in this step were not touched before
    by_cases hk : k = n ∨ k = a.size - 1 - n
    · rw [if_pos hk, if_neg (by omega), if_pos (by omega)]
    · rw [if_neg hk]
      by_cases hBefore : k < n ∨ a.size - n ≤ k ∧ k < a.size
      · rw [if_pos hBefore, if_pos (by omega)]
      · rw [if_neg hBefore, if_neg (by omega)]

theorem reverseInPlace_eq : reverseInPlace a = a.reverse := by
  obtain ⟨hSize, hEntry⟩ := getElem?_foldl_swapEnds a (Nat.le_refl (a.size / 2))
  refine Array.ext_getElem? fun k => (hEntry k).trans ?_
  by_cases hk : k < a.size
  · rw [Array.getElem?_reverse hk]
    split
    · rfl
    · -- only the entry in the middle stays in its place
      rw [show a.size - 1 - k = k by omega]
  · rw [if_neg (by omega), Array.getElem?_eq_none (by omega),
      Array.getElem?_eq_none (by rw [Array.size_reverse]; omega)]

end Reversal

/-- Each layer on top of what is merged of those after it, down to the standard one. -/
def nearestFirst (found : List Layer) : Layer :=
  found.foldr (fun l below => below.merge l) .standard

/-- The layers that were found are merged nearest first. -/
theorem mergeLayers_found (found : List Layer) :
    mergeLayers (reverseInPlace (found.toArray.push .standard)) =
      .ok (nearestFirst found).settings := by
  rw [reverseInPlace_eq]
  unfold mergeLayers
  rw [Array.toList_reverse, Array.toList_push, List.toList_toArray, List.reverse_append,
    List.reverse_singleton, List.singleton_append]
  dsimp only
  rw [List.foldl_reverse]
  rfl

/-- The first layer that defines a setting decides about it. -/
theorem get_nearestFirst (found : List Layer) (k : Setting) :
    (nearestFirst found).settings.get k =
      (found.findSome? fun l => l.get? k).getD (standard.get k) := by
  induction found with
  | nil => rfl
  | cons l found ih =>
    have hCons : nearestFirst (l :: found) = (nearestFirst found).merge l := rfl
    rw [hCons, Layer.get_merge, ih, List.findSome?_cons]
    cases l.get? k <;> rfl

/-! ### Loading -/

/-- What a decoder reports of the texts that it accepts are exactly their keys and values, which
`contents` gives. -/
structure Reports (decode : String → Option Layer)
    (contents : String → Setting → Option SettingValue) : Prop where
  isDefined {text : String} {l : Layer} (k : Setting) : decode text = some l →
    l.isDefined k.path = (contents text k).isSome
  value {text : String} {l : Layer} {k : Setting} {v : SettingValue} : decode text = some l →
    contents text k = some v → l.settings.get k = v

variable {decode : String → Option Layer} {contents : String → Setting → Option SettingValue}
variable {read : String → Entry} {dir : String} {dirs : List String} {s : Settings} {k : Setting}

theorem Reports.get? (h : Reports decode contents) {text : String} {l : Layer}
    (hl : decode text = some l) (k : Setting) : l.get? k = contents text k := by
  unfold Layer.get?
  rw [h.isDefined k hl]
  cases hv : contents text k with
  | none => rfl
  | some v => rw [Option.isSome_some, if_pos rfl, h.value hl hv]

/-- The value that the file of a directory gives to a setting, if there is a file and it does. -/
def valueAt (contents : String → Setting → Option SettingValue) (read : String → Entry)
    (dir : String) (k : Setting) : Option SettingValue :=
  match read (Path.join dir fileName) with
  | .file text => contents text k
  | _ => none

/-- Whether the directory has no file with settings, or one that can be decoded. -/
def isReadable (decode : String → Option Layer) (read : String → Entry) (dir : String) : Bool :=
  match read (Path.join dir fileName) with
  | .missing => true
  | .file text => (decode text).isSome
  | _ => false

theorem exists_layer (hDecode : Reports decode contents) (h : isReadable decode read dir = true) :
    ∃ l, layerAt decode read dir = .ok l ∧
      ∀ k, (l.bind fun l => l.get? k) = valueAt contents read dir k := by
  unfold isReadable at h
  unfold layerAt valueAt
  split at h
  case h_1 hMissing =>
    refine ⟨none, by simp only [hMissing], fun k => ?_⟩
    rw [hMissing]
    rfl
  case h_2 text hFile =>
    obtain ⟨l, hText⟩ := Option.isSome_iff_exists.mp h
    refine ⟨some l, by simp only [hFile, hText], fun k => ?_⟩
    rw [hFile]
    exact hDecode.get? hText k
  case h_3 => cases h

/-- Where all files can be read, reading them gives what they say. -/
theorem exists_layers (hDecode : Reports decode contents) (dirs : List String)
    (h : ∀ d ∈ dirs, isReadable decode read d = true) : ∃ layers,
      dirs.mapM (layerAt decode read) = .ok layers ∧
      ∀ k, (layers.filterMap id).findSome? (fun l => l.get? k) =
        dirs.findSome? fun d => valueAt contents read d k := by
  induction dirs with
  | nil => exact ⟨[], rfl, fun _ => rfl⟩
  | cons d dirs ih =>
    obtain ⟨l, hLayer, hGet⟩ := exists_layer hDecode (h d List.mem_cons_self)
    obtain ⟨layers, hLayers, hFind⟩ := ih fun d hd => h d (List.mem_cons_of_mem _ hd)
    refine ⟨l :: layers, ?_, fun k => ?_⟩
    · rw [List.mapM_cons, hLayer, hLayers]
      rfl
    · rw [List.findSome?_cons, ← hGet, ← hFind]
      cases l with
      | none => rfl
      | some l => exact List.findSome?_cons

/-- What is checked is loaded, and nothing else. -/
theorem load_of_layers {layers : List (Option Layer)}
    (h : (searched dir).mapM (layerAt decode read) = .ok layers) :
    load decode read dir =
      let s := (nearestFirst (layers.filterMap id)).settings
      match s.check with
      | .ok _ => .ok s
      | .error e => .error (.invalid e) := by
  have hLayers : layersFor decode read dir =
      .ok (reverseInPlace ((layers.filterMap id).toArray.push .standard)) := by
    unfold layersFor
    rw [h]
    rfl
  unfold load
  rw [hLayers]
  change (((mergeLayers _).mapError LoadError.fault).bind fun s => _) = _
  rw [mergeLayers_found]
  generalize (nearestFirst (layers.filterMap id)).settings = s
  change (match s.check with
    | .ok _ => pure s
    | .error e => throw (.invalid e) : Except LoadError Settings) = match s.check with
      | .ok _ => .ok s
      | .error e => .error (.invalid e)
  cases s.check <;> rfl

/-- The value is given by the nearest file, at or above the directory, that says something about the
setting. If no file does, it is the standard one. -/
def Decides (contents : String → Setting → Option SettingValue) (read : String → Entry)
    (dir : String) (k : Setting) (v : SettingValue) : Prop :=
  (∃ n, valueAt contents read (Path.parent^[n] dir) k = some v ∧
      ∀ m < n, valueAt contents read (Path.parent^[m] dir) k = none) ∨
    (∀ n, valueAt contents read (Path.parent^[n] dir) k = none) ∧ v = standard.get k

/-- What is found first on the way up is what the nearest file says. -/
theorem decides_findSome? {last : Nat} (h : Path.WayUp dir dirs last) (k : Setting) :
    Decides contents read dir k
      ((dirs.findSome? fun d => valueAt contents read d k).getD (standard.get k)) := by
  cases hFind : dirs.findSome? fun d => valueAt contents read d k with
  | none =>
    refine .inr ⟨fun n => ?_, rfl⟩
    exact List.findSome?_eq_none_iff.mp hFind _ ((h.mem_iff _).mpr ⟨n, rfl⟩)
  | some v =>
    obtain ⟨before, d, after, hDirs, hValue, hNone⟩ := List.findSome?_eq_some_iff.mp hFind
    refine .inl ⟨before.length, ?_, fun m hm => ?_⟩
    · rw [← h.eq_iterate (d := d) (by simp [hDirs])]
      exact hValue
    · rw [← h.eq_iterate (d := before[m]) (by rw [hDirs, List.getElem?_append_left hm,
        List.getElem?_eq_getElem hm])]
      exact hNone _ (List.getElem_mem hm)

/-- If the files at and above a directory can be decoded, and the decoder reports their keys and
values, then loading goes up from the directory to the top and passes every directory above it once.
It gives the settings that the nearest files decide, each on its own, exactly if these pass the
check, and otherwise what the check says. Without a directory it gives the standard settings. -/
theorem load_nearest (decode : String → Option Layer)
    (contents : String → Setting → Option SettingValue) (hDecode : Reports decode contents)
    (read : String → Entry) (dir : String)
    (hRead : ∀ n, isReadable decode read (Path.parent^[n] dir) = true) :
    (dir ≠ "" →
      (∃ last, Path.WayUp dir (searched dir) last) ∧ (searched dir).Nodup ∧
        (∀ d, d ∈ searched dir ↔ ∃ n, d = Path.parent^[n] dir) ∧
        ∃ s : Settings, (∀ k, Decides contents read dir k (s.get k)) ∧
          load decode read dir = match s.check with
            | .ok _ => .ok s
            | .error e => .error (.invalid e)) ∧
    (dir = "" → searched dir = [] ∧ load decode read dir = .ok standard) := by
  refine ⟨fun hDir => ?_, fun hDir => ?_⟩
  · have hSearched : searched dir = Path.ancestors dir := if_neg hDir
    obtain ⟨last, hUp⟩ := Path.exists_wayUp hDir
    rw [← hSearched] at hUp
    obtain ⟨layers, hLayers, hFind⟩ := exists_layers hDecode (searched dir)
      fun d hd => by
        obtain ⟨n, rfl⟩ := (hUp.mem_iff d).mp hd
        exact hRead n
    refine ⟨⟨last, hUp⟩, hUp.nodup, hUp.mem_iff, _, fun k => ?_, load_of_layers hLayers⟩
    rw [get_nearestFirst, hFind]
    exact decides_findSome? hUp k
  · subst hDir
    exact ⟨rfl, rfl⟩

end Settings

/-! ### TOML documents -/

namespace Layer

variable {root : Toml.Table} {k : Setting} {v : Toml.Value} {l : Layer}

/-- The type of a setting. -/
def typeOf : Setting → SettingType
  | .narrowing | .color | .format => .text
  | .bitWidth | .workers => .integer
  | .interprocedural | .trace => .boolean

/-- The names of settings stand for themselves where case does not count. -/
theorem exists_types (k : Setting) : ∃ types, schema.lookup (foldKey k.table) = some types ∧
    types.lookup (foldKey k.key) = some (typeOf k) := by
  have hAnalysis : foldKey "analysis" = "analysis" := by decide +kernel
  have hOutput : foldKey "output" = "output" := by decide +kernel
  have hKey : foldKey k.key = k.key := by cases k <;> decide +kernel
  rw [hKey]
  cases k with
  | narrowing | bitWidth | interprocedural | workers =>
    exact ⟨_, by rw [Setting.table, hAnalysis]; rfl, rfl⟩
  | color | trace | format => exact ⟨_, by rw [Setting.table, hOutput]; rfl, rfl⟩

/-- The value of a setting in a document with the right types has its type. -/
theorem admits_of_find? (h : wellTyped root = true) (hv : find? root k.table k.key = some v) :
    (typeOf k).admits v = true := by
  have hMem {t : Toml.Table} {name : String} {v : Toml.Value} (hv : t.lookup name = some v) :
      (name, v) ∈ t := by
    obtain ⟨before, after, rfl, -⟩ := List.lookup_eq_some_iff.mp hv
    simp
  obtain ⟨t, ht, hLookup⟩ := Option.bind_eq_some_iff.mp hv
  obtain ⟨u, hu, hTable⟩ := Option.bind_eq_some_iff.mp ht
  obtain ⟨types, hTypes, hType⟩ := exists_types k
  cases u with
  | table entries =>
    cases hTable
    have hSection := List.all_eq_true.mp h _ (hMem hu)
    simp only [hTypes] at hSection
    have hEntry := List.all_eq_true.mp hSection _ (hMem hLookup)
    simpa only [hType] using hEntry
  | _ => cases hTable

/-- The value of a setting that a value of a document stands for. -/
def valueOf? : Toml.Value → Option SettingValue
  | .text s => some (.text s)
  | .integer n => some (.integer n)
  | .boolean b => some (.boolean b)
  | _ => none

/-- What a document says about a setting. -/
def contentsOf (text : String) (k : Setting) : Option SettingValue :=
  (Toml.Table.ofText? text).bind fun root => (find? root k.table k.key).bind valueOf?

/-- A layer has the values of the settings that its document defines. -/
theorem get_ofTable (h : ofTable? root = some l) (hv : find? root k.table k.key = some v) :
    valueOf? v = some (l.settings.get k) := by
  unfold ofTable? at h
  split at h
  case isTrue => cases h
  case isFalse hTypes =>
    rw [Bool.not_eq_true', Bool.not_eq_false] at hTypes
    have hTyped := admits_of_find? hTypes hv
    have hPart {α : Type} (make : α → SettingValue) (part : Toml.Value → Option α) (zero x : α)
        (hx : part v = some x) :
        make x = make (((find? root k.table k.key).bind part).getD zero) := by
      rw [hv, Option.bind_some, hx, Option.getD_some]
    cases h
    cases k with
    | narrowing | color | format =>
      cases v with
      | text s => exact congrArg some (hPart .text Toml.Value.text? "" s rfl)
      | _ => cases hTyped
    | bitWidth | workers =>
      cases v with
      | integer n => exact congrArg some (hPart .integer Toml.Value.integer? 0 n rfl)
      | _ => cases hTyped
    | interprocedural | trace =>
      cases v with
      | boolean b => exact congrArg some (hPart .boolean Toml.Value.boolean? false b rfl)
      | _ => cases hTyped

theorem isDefined_ofTable (h : ofTable? root = some l) (k : Setting) :
    l.isDefined k.path = (find? root k.table k.key).isSome := by
  unfold ofTable? at h
  split at h
  case isTrue => cases h
  case isFalse =>
    cases h
    rfl

/-- The reader of documents reports what they say. -/
theorem ofText?_reports : Settings.Reports ofText? contentsOf where
  isDefined {text l} k h := by
    obtain ⟨root, hRoot, hTable⟩ := Option.bind_eq_some_iff.mp h
    rw [isDefined_ofTable hTable, contentsOf, hRoot, Option.bind_some]
    cases hv : find? root k.table k.key with
    | none => rfl
    | some v => rw [Option.bind_some, get_ofTable hTable hv]; rfl
  value {text l k v} h hv := by
    obtain ⟨root, hRoot, hTable⟩ := Option.bind_eq_some_iff.mp h
    rw [contentsOf, hRoot, Option.bind_some] at hv
    obtain ⟨u, hu, hValue⟩ := Option.bind_eq_some_iff.mp hv
    rw [get_ofTable hTable hu] at hValue
    exact Option.some.inj hValue

end Layer

namespace Settings

/-- Two files with settings, one above the other. -/
def layered : FileTree :=
  [("vrp.conf", some "[analysis]\nworkers = 4\n[output]\ntrace = true\ncolor = \"never\"\n"),
    ("a/vrp.conf", some "[analysis]\nworkers = 0\n[output]\ntrace = false\n"),
    ("a/b/c", none)]

/-- From two directories below, the lower file decides about the workers and the trace, with zero
and false, and the upper one about the color. -/
theorem layered_nearest :
    (∀ n, isReadable Layer.ofText? layered.find (Path.parent^[n] "a/b/c") = true) ∧
      load Layer.ofText? layered.find "a/b/c" =
        .ok ⟨"cousot", 0, true, 0, "never", false, "text"⟩ ∧
      Decides Layer.contentsOf layered.find "a/b/c" .trace (.boolean false) ∧
      Decides Layer.contentsOf layered.find "a/b/c" .color (.text "never") ∧
      Decides Layer.contentsOf layered.find "a/b/c" .format (.text "text") := by
  have hRead (n : Nat) :
      isReadable Layer.ofText? layered.find (Path.parent^[n] "a/b/c") = true := by
    have hAll : ∀ d ∈ Path.ancestors "a/b/c",
        isReadable Layer.ofText? layered.find d = true := by decide +kernel
    obtain ⟨last, hUp⟩ := Path.exists_wayUp (by decide : "a/b/c" ≠ "")
    exact hAll _ ((hUp.mem_iff _).mpr ⟨n, rfl⟩)
  have hLoad : load Layer.ofText? layered.find "a/b/c" =
      .ok ⟨"cousot", 0, true, 0, "never", false, "text"⟩ := by decide +kernel
  obtain ⟨hNearest, -⟩ :=
    load_nearest Layer.ofText? Layer.contentsOf Layer.ofText?_reports layered.find "a/b/c" hRead
  obtain ⟨-, -, -, s, hDecides, hEq⟩ := hNearest (by decide)
  rw [hLoad] at hEq
  cases hCheck : s.check with
  | error e =>
    rw [hCheck] at hEq
    cases hEq
  | ok _ =>
    rw [hCheck] at hEq
    cases hEq
    exact ⟨hRead, hLoad, hDecides .trace, hDecides .color, hDecides .format⟩

end Settings

end ValueRange
