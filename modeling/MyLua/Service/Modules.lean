import MyLua.Foundation.CString

/-!
# The Search for Modules (`init`, `loadlib.c`)

`init` puts the directories of the process in front of what the environment says about the paths of
Lua, and lets the default paths follow. `require` looks for a Lua file first, then for a library
with the name of the module, then for one with its root. The loader of libraries has a fallback: a
library without the function of the module may have the function `luaopen_mylib`.

Nothing fills `package.preload`, so the first loader finds nothing.

## Main results

- `setpath_first`: the directory of the process stays the first one of the path.
- `findfile_first`: so a file there is found, whatever the environment says.
- `module_search`: the file and the function that `require` finds.
-/

namespace MyLua.Service

open MyLua.Foundation

/-! ## §1 Paths -/

/-- The loop of `luaL_gsub`; the number says how much of a pattern is still to be skipped. -/
def gsubLoop (p r : Bytes) : Nat → Bytes → Bytes
  | _, [] => []
  | skip + 1, _ :: s => gsubLoop p r skip s
  | 0, c :: s =>
    -- The search goes on behind the occurrence.
    if p.isPrefixOf (c :: s) then r ++ gsubLoop p r (p.length - 1) s else c :: gsubLoop p r 0 s

/-- `luaL_gsub`, for a pattern that is not empty. -/
def luaLGsub (s p r : Bytes) : Bytes := gsubLoop p r 0 s

def LUA_PATH_DEFAULT : Bytes := ascii <|
  "./?.lua;/usr/local/share/lua/5.1/?.lua;/usr/local/share/lua/5.1/?/init.lua;" ++
    "/usr/local/lib/lua/5.1/?.lua;/usr/local/lib/lua/5.1/?/init.lua"

def LUA_CPATH_DEFAULT : Bytes := ascii
  "./?.so;/usr/local/lib/lua/5.1/?.so;/usr/local/lib/lua/5.1/loadall.so"

/-- The environment variable that `init` sets, with the value it had before. -/
def initPath (dir template : Bytes) (old : Option Bytes) : Bytes :=
  dir ++ template ++ ascii ";" ++ old.getD [] ++ ascii ";;"

/-- `LUA_PATH` after `init`. -/
def luaPath (strScriptsPath : Bytes) (old : Option Bytes) : Bytes :=
  initPath strScriptsPath (ascii "/?.lua") old

/-- `LUA_CPATH` after `init`. -/
def luaCpath (strExtensionsPath : Bytes) (old : Option Bytes) : Bytes :=
  initPath strExtensionsPath (ascii "/?.so") old

/-- `setpath` -/
def setpath (env : Option Bytes) (deflt : Bytes) : Bytes :=
  match env with
  | none => deflt
  -- `;;` becomes `;AUXMARK;`, and the mark becomes the default path.
  | some path => luaLGsub (luaLGsub path (ascii ";;") (ch ';' :: 1 :: [ch ';'])) [1] deflt

/-- `pushnexttemplate`: the next template and the rest of the path. -/
def pushnexttemplate (path : Bytes) : Option (Bytes × Bytes) :=
  match path.dropWhile (· = ch ';') with
  | [] => none
  | c :: s => some ((c :: s).takeWhile (· ≠ ch ';'), (c :: s).dropWhile (· ≠ ch ';'))

/-- The loop of `findfile`: the first readable file, or the files it has tried. -/
def findfileLoop (readable : Bytes → Bool) (name : Bytes) :
    Nat → Bytes → List Bytes → Except (List Bytes) Bytes
  | 0, _, tried => .error tried
  | turns + 1, path, tried =>
    match pushnexttemplate path with
    | none => .error tried
    | some (template, path) =>
      let filename := luaLGsub template (ascii "?") name
      if readable filename then .ok filename
      else findfileLoop readable name turns path (tried ++ [filename])

/-- `findfile`; every template takes a byte of the path at least. -/
def findfile (readable : Bytes → Bool) (path name : Bytes) : Except (List Bytes) Bytes :=
  findfileLoop readable (luaLGsub name (ascii ".") (ascii "/")) (path.length + 1) path []

/-! ## §2 Loaders -/

/-- What the loaders find in the file system. -/
structure Files where
  readable : Bytes → Bool
  /-- `luaL_loadfile` succeeds. -/
  compiles : Bytes → Bool
  /-- `dlopen` succeeds. -/
  opens : Bytes → Bool
  /-- `dlsym` finds the function in the library. -/
  hasSym : Bytes → Bytes → Bool

/-- The chunk or the function that a loader returns. -/
inductive Loader where
  | lua (filename : Bytes)
  | function (filename funcname : Bytes)
  deriving DecidableEq

/-- The file a loader was found in. -/
def Loader.file : Loader → Bytes
  | .lua filename => filename
  | .function filename _ => filename

/-- The errors of `require`. -/
inductive RequireError where
  | loaderror (filename : Bytes)
  | notFound
  deriving DecidableEq

/-- `ll_loadfunc` returns 0. -/
def Files.loadfunc (fs : Files) (path sym : Bytes) : Bool := fs.opens path && fs.hasSym path sym

/-- `mkfuncname` -/
def mkfuncname (modname : Bytes) : Bytes :=
  -- What stands before a hyphen is ignored.
  let modname := if ch '-' ∈ modname then (modname.dropWhile (· ≠ ch '-')).drop 1 else modname
  ascii "luaopen_" ++ luaLGsub modname (ascii ".") (ascii "_")

def LUA_FUNC_DEFAULT : Bytes := ascii "luaopen_mylib"

/-- `loader_Lua` -/
def loaderLua (fs : Files) (path name : Bytes) : Except RequireError (Option Loader) :=
  match findfile fs.readable path name with
  | .error _ => .ok none
  | .ok filename =>
    if fs.compiles filename then .ok (some (.lua filename)) else .error (.loaderror filename)

/-- `loader_C` -/
def loaderC (fs : Files) (cpath name : Bytes) : Except RequireError (Option Loader) :=
  match findfile fs.readable cpath name with
  | .error _ => .ok none
  | .ok filename =>
    -- The function of the module comes first, then the fallback of this repository.
    if fs.loadfunc filename (mkfuncname name) then
      .ok (some (.function filename (mkfuncname name)))
    else if fs.loadfunc filename LUA_FUNC_DEFAULT then
      .ok (some (.function filename LUA_FUNC_DEFAULT))
    else .error (.loaderror filename)

/-- `loader_Croot` -/
def loaderCroot (fs : Files) (cpath name : Bytes) : Except RequireError (Option Loader) :=
  if ch '.' ∈ name then
    match findfile fs.readable cpath (name.takeWhile (· ≠ ch '.')) with
    | .error _ => .ok none
    | .ok filename =>
      if fs.loadfunc filename (mkfuncname name) then
        .ok (some (.function filename (mkfuncname name)))
      -- A library without the function is not the one that was looked for.
      else if fs.opens filename then .ok none
      else .error (.loaderror filename)
  else .ok none

/-- The part of `ll_require` that goes through the loaders. -/
def findLoader (fs : Files) (path cpath name : Bytes) : Except RequireError Loader := do
  match ← loaderLua fs path name with
  | some l => return l
  | none =>
    match ← loaderC fs cpath name with
    | some l => return l
    | none =>
      match ← loaderCroot fs cpath name with
      | some l => return l
      | none => .error .notFound

/-! ## §3 Substitution -/

variable {s a b p r name dir template deflt : Bytes} {c : UInt8} {old : Option Bytes}

/-- A part without the first byte of the pattern is kept. -/
theorem gsubLoop_append (ha : c ∉ a) (b p r : Bytes) :
    gsubLoop (c :: p) r 0 (a ++ b) = a ++ gsubLoop (c :: p) r 0 b := by
  induction a with
  | nil => rfl
  | cons d a ih =>
    obtain ⟨hd, ha⟩ := not_or.mp (mt List.mem_cons.mpr ha)
    -- The pattern starts with another byte.
    have hprefix : (c :: p).isPrefixOf (d :: (a ++ b)) = false := by
      rw [List.isPrefixOf, beq_false_of_ne hd, Bool.false_and]
    rw [List.cons_append, gsubLoop, hprefix, if_neg Bool.false_ne_true, ih ha, List.cons_append]

/-- The first template of a path stays the first one. -/
theorem setpath_first (ha : ch ';' ∉ a) (ha' : 1 ∉ a) (s deflt : Bytes) :
    ∃ y, setpath (some (a ++ ch ';' :: s)) deflt = a ++ ch ';' :: y := by
  -- The first substitution only touches what follows the first separator.
  have hfirst : ∃ x, luaLGsub (a ++ ch ';' :: s) (ascii ";;") (ch ';' :: 1 :: [ch ';'])
      = a ++ ch ';' :: x := by
    have hpattern : ascii ";;" = ch ';' :: [ch ';'] := rfl
    rw [luaLGsub, hpattern, gsubLoop_append ha, gsubLoop]
    split_ifs
    · exact ⟨_, rfl⟩
    · exact ⟨_, rfl⟩
  obtain ⟨x, hx⟩ := hfirst
  -- The separator itself is kept by the second one.
  have hmark : [(1 : UInt8)].isPrefixOf (ch ';' :: x) = false := rfl
  rw [setpath, hx, luaLGsub, gsubLoop_append ha', gsubLoop, hmark, if_neg Bool.false_ne_true]
  exact ⟨_, rfl⟩

theorem pushnexttemplate_first (ha : ch ';' ∉ a) (hne : a ≠ []) (s : Bytes) :
    pushnexttemplate (a ++ ch ';' :: s) = some (a, ch ';' :: s) := by
  have hall : ∀ c ∈ a, decide (c ≠ ch ';') = true := by
    intro c hc
    apply decide_eq_true
    rintro rfl
    exact ha hc
  have htake : (a ++ ch ';' :: s).takeWhile (· ≠ ch ';') = a := by
    rw [List.takeWhile_append_of_pos hall, List.takeWhile_cons_of_neg (by simp), List.append_nil]
  have hdrop : (a ++ ch ';' :: s).dropWhile (· ≠ ch ';') = ch ';' :: s := by
    rw [List.dropWhile_append_of_pos hall, List.dropWhile_cons_of_neg (by simp)]
  cases a with
  | nil => exact absurd rfl hne
  | cons d a =>
    -- No separator is skipped, since the template does not start with one.
    have hd : d ≠ ch ';' := fun heq => ha (heq ▸ List.mem_cons_self)
    have hskip : (d :: a ++ ch ';' :: s).dropWhile (· = ch ';') = d :: a ++ ch ';' :: s := by
      rw [List.cons_append, List.dropWhile_cons_of_neg]
      rw [decide_eq_true_eq]
      exact hd
    rw [pushnexttemplate, hskip]
    exact congrArg some (Prod.ext htake hdrop)

/-- A directory of the process: its name is not taken apart. -/
structure PlainDir (dir : Bytes) : Prop where
  separator : ch ';' ∉ dir
  mark : ch '?' ∉ dir
  auxmark : 1 ∉ dir

/-- The name of the module as a file name. -/
def fileName (name : Bytes) : Bytes := luaLGsub name (ascii ".") (ascii "/")

/-- **A file in the directory of the process** is found, whatever the environment said before. -/
theorem findfile_first {extension : Bytes} (hdir : PlainDir dir)
    (hext : ch ';' ∉ extension ∧ ch '?' ∉ extension ∧ 1 ∉ extension) (old : Option Bytes)
    (deflt : Bytes) {readable : Bytes → Bool}
    (hread : readable (dir ++ ascii "/" ++ fileName name ++ extension) = true) :
    findfile readable (setpath (some (initPath dir (ascii "/?" ++ extension) old)) deflt) name
      = .ok (dir ++ ascii "/" ++ fileName name ++ extension) := by
  have hslash : ascii "/?" = [ch '/', ch '?'] := rfl
  have hmarks : ch ';' ∉ [ch '/', ch '?'] ∧ 1 ∉ [ch '/', ch '?'] := by decide
  -- The template of the directory is taken apart nowhere.
  have hsep : ch ';' ∉ dir ++ (ascii "/?" ++ extension) := by
    rw [List.mem_append, List.mem_append, not_or, not_or, hslash]
    exact ⟨hdir.separator, hmarks.1, hext.1⟩
  have haux : 1 ∉ dir ++ (ascii "/?" ++ extension) := by
    rw [List.mem_append, List.mem_append, not_or, not_or, hslash]
    exact ⟨hdir.auxmark, hmarks.2, hext.2.2⟩
  have hne : dir ++ (ascii "/?" ++ extension) ≠ [] := by
    rw [hslash]
    exact List.append_ne_nil_of_right_ne_nil dir (List.cons_ne_nil _ _)
  have hpath : initPath dir (ascii "/?" ++ extension) old
      = dir ++ (ascii "/?" ++ extension) ++ ch ';' :: (old.getD [] ++ ascii ";;") := by
    rw [initPath, List.append_assoc _ (ascii ";"), List.append_assoc _ _ (ascii ";;")]
    rfl
  obtain ⟨y, hy⟩ := setpath_first hsep haux (old.getD [] ++ ascii ";;") deflt
  -- The mark in the template is the only one.
  have hfile : luaLGsub (dir ++ (ascii "/?" ++ extension)) (ascii "?") (fileName name)
      = dir ++ ascii "/" ++ fileName name ++ extension := by
    have hmark : ascii "?" = [ch '?'] := rfl
    have hrest : gsubLoop [ch '?'] (fileName name) 0 extension = extension := by
      have hkept := gsubLoop_append hext.2.1 [] [] (fileName name)
      rw [List.append_nil, gsubLoop, List.append_nil] at hkept
      exact hkept
    rw [luaLGsub, hmark, gsubLoop_append hdir.mark, hslash]
    show dir ++ (ch '/' :: (fileName name ++ gsubLoop [ch '?'] (fileName name) 0 extension)) = _
    rw [hrest, List.append_assoc, List.append_assoc]
    rfl
  -- So it is the first template that the loop tries.
  rw [hpath, hy, findfile, findfileLoop, pushnexttemplate_first hsep hne]
  show (if readable (luaLGsub _ _ (fileName name)) = true then _ else _) = _
  rw [hfile, if_pos hread]
  exact congrArg Except.ok hfile

theorem readable_of_findfileLoop {readable : Bytes → Bool} {turns : Nat} {path filename : Bytes}
    {tried : List Bytes} (h : findfileLoop readable name turns path tried = .ok filename) :
    readable filename = true := by
  induction turns generalizing path tried with
  | zero => cases h
  | succ turns ih =>
    -- By induction on the templates that are left.
    rw [findfileLoop] at h
    cases hnext : pushnexttemplate path with
    | none =>
      rw [hnext] at h
      cases h
    | some next =>
      rw [hnext] at h
      dsimp only at h
      split_ifs at h with hread
      · obtain rfl := Except.ok.inj h
        exact hread
      · exact ih h

/-- `findfile` returns readable files only. -/
theorem readable_of_findfile {readable : Bytes → Bool} {path filename : Bytes}
    (h : findfile readable path name = .ok filename) : readable filename = true :=
  readable_of_findfileLoop h

/-! ## §4 The loaders -/

variable {fs : Files} {path cpath : Bytes} {l : Loader}

theorem loaderLua_readable (h : loaderLua fs path name = .ok (some l)) :
    fs.readable l.file = true := by
  rw [loaderLua] at h
  -- A file that does not compile is an error, not a loader.
  cases hfind : findfile fs.readable path name with
  | error tried =>
    rw [hfind] at h
    cases h
  | ok filename =>
    rw [hfind] at h
    dsimp only at h
    split_ifs at h
    obtain rfl := Option.some.inj (Except.ok.inj h)
    exact readable_of_findfile hfind

theorem loaderC_readable (h : loaderC fs cpath name = .ok (some l)) :
    fs.readable l.file = true := by
  rw [loaderC] at h
  cases hfind : findfile fs.readable cpath name with
  | error tried =>
    rw [hfind] at h
    cases h
  | ok filename =>
    rw [hfind] at h
    dsimp only at h
    split_ifs at h
    · obtain rfl := Option.some.inj (Except.ok.inj h)
      exact readable_of_findfile hfind
    · -- The function of the module and the fallback are in the same file.
      obtain rfl := Option.some.inj (Except.ok.inj h)
      exact readable_of_findfile hfind

theorem loaderCroot_readable (h : loaderCroot fs cpath name = .ok (some l)) :
    fs.readable l.file = true := by
  rw [loaderCroot] at h
  by_cases hdot : ch '.' ∈ name
  · rw [if_pos hdot] at h
    cases hfind : findfile fs.readable cpath (name.takeWhile (· ≠ ch '.')) with
    | error tried =>
      rw [hfind] at h
      cases h
    | ok filename =>
      rw [hfind] at h
      dsimp only at h
      split_ifs at h
      · obtain rfl := Option.some.inj (Except.ok.inj h)
        exact readable_of_findfile hfind
      · cases h
  · rw [if_neg hdot] at h
    cases h

theorem findLoader_readable (h : findLoader fs path cpath name = .ok l) :
    fs.readable l.file = true := by
  rw [findLoader] at h
  -- The first loader that finds something decides.
  cases hlua : loaderLua fs path name with
  | error e =>
    rw [hlua] at h
    cases h
  | ok r =>
    cases r with
    | some l' =>
      rw [hlua] at h
      obtain rfl := Except.ok.inj h
      exact loaderLua_readable hlua
    | none =>
      cases hc : loaderC fs cpath name with
      | error e =>
        simp only [hlua, hc, bind, Except.bind] at h
        cases h
      | ok r =>
        cases r with
        | some l' =>
          simp only [hlua, hc, bind, Except.bind] at h
          obtain rfl := Except.ok.inj h
          exact loaderC_readable hc
        | none =>
          cases hroot : loaderCroot fs cpath name with
          | error e =>
            simp only [hlua, hc, hroot, bind, Except.bind] at h
            cases h
          | ok r =>
            simp only [hlua, hc, hroot, bind, Except.bind] at h
            cases r with
            | none => cases h
            | some l' =>
              obtain rfl := Except.ok.inj h
              exact loaderCroot_readable hroot

/-- **What `require` finds**, whatever the environment said before. A readable script of the process
comes first of all; if there is no Lua file for the module on the path, a readable library of the
process comes next, with the function of the module or, without it, `luaopen_mylib`. Every file
found is readable. -/
theorem module_search {strScriptsPath strExtensionsPath : Bytes}
    (hscripts : PlainDir strScriptsPath) (hextensions : PlainDir strExtensionsPath)
    (oldPath oldCpath : Option Bytes) (fs : Files) (name : Bytes) :
    let path := setpath (some (luaPath strScriptsPath oldPath)) LUA_PATH_DEFAULT
    let cpath := setpath (some (luaCpath strExtensionsPath oldCpath)) LUA_CPATH_DEFAULT
    let script := strScriptsPath ++ ascii "/" ++ fileName name ++ ascii ".lua"
    let library := strExtensionsPath ++ ascii "/" ++ fileName name ++ ascii ".so"
    (fs.readable script = true → findLoader fs path cpath name =
      if fs.compiles script then .ok (.lua script) else .error (.loaderror script)) ∧
    ((∃ tried, findfile fs.readable path name = .error tried) → fs.readable library = true →
      findLoader fs path cpath name =
        if fs.loadfunc library (mkfuncname name) then .ok (.function library (mkfuncname name))
        else if fs.loadfunc library LUA_FUNC_DEFAULT then
          .ok (.function library LUA_FUNC_DEFAULT)
        else .error (.loaderror library)) ∧
    ∀ l, findLoader fs path cpath name = .ok l → fs.readable l.file = true := by
  intro path cpath script library
  refine ⟨?_, ?_, fun l hl => findLoader_readable hl⟩
  · intro hread
    -- The script is in the first template of the Lua path.
    have hfind : findfile fs.readable path name = .ok script :=
      findfile_first hscripts (by decide) oldPath LUA_PATH_DEFAULT hread
    rw [findLoader, loaderLua, hfind]
    dsimp only
    split_ifs <;> rfl
  · rintro ⟨tried, hnone⟩ hread
    -- `loader_Lua` finds nothing, and the library is in the first template of the C path.
    have hfind : findfile fs.readable cpath name = .ok library :=
      findfile_first hextensions (by decide) oldCpath LUA_CPATH_DEFAULT hread
    rw [findLoader, loaderLua, hnone, loaderC, hfind]
    dsimp only
    simp only [bind, Except.bind]
    split_ifs <;> rfl

/-- `require "log"` in a process whose scripts and extensions lie in the directories they are in by
default, with a library that has the fallback only: no template of the Lua path gives a file, so
the library is found. -/
theorem module_search_log :
    let fs : Files :=
      { readable := fun file => file = ascii "extensions/log.so", compiles := fun _ => true
        opens := fun _ => true, hasSym := fun _ sym => sym = LUA_FUNC_DEFAULT }
    findLoader fs (setpath (some (luaPath (ascii "scripts") none)) LUA_PATH_DEFAULT)
        (setpath (some (luaCpath (ascii "extensions") none)) LUA_CPATH_DEFAULT) (ascii "log") =
      .ok (.function (ascii "extensions/log.so") (ascii "luaopen_mylib")) := by
  intro fs
  have hscripts : PlainDir (ascii "scripts") := ⟨by decide, by decide, by decide⟩
  have hextensions : PlainDir (ascii "extensions") := ⟨by decide, by decide, by decide⟩
  obtain ⟨-, hlibrary, -⟩ := module_search hscripts hextensions none none fs (ascii "log")
  have hnone : ∃ tried, findfile fs.readable
      (setpath (some (luaPath (ascii "scripts") none)) LUA_PATH_DEFAULT) (ascii "log") =
        .error tried := by
    have hfails : (findfile fs.readable
        (setpath (some (luaPath (ascii "scripts") none)) LUA_PATH_DEFAULT) (ascii "log")).toOption =
          none := by
      decide +kernel
    cases hfind : findfile fs.readable
        (setpath (some (luaPath (ascii "scripts") none)) LUA_PATH_DEFAULT) (ascii "log") with
    | error tried => exact ⟨tried, rfl⟩
    | ok filename =>
      rw [hfind] at hfails
      cases hfails
  rw [hlibrary hnone rfl]
  rfl

/-- Two `;;` of the environment stand for the default path, and so does the one that follows. -/
example : setpath (some (initPath (ascii "d") (ascii "/?.so") (some (ascii "a;;b")))) (ascii "x") =
    ascii "d/?.so;a;x;b;x;" := by decide

end MyLua.Service
