import MarketFeed.Httpd.Request
import MarketFeed.Lib.Path
/-!
# Static files (src/mdfeed/httpd.py:41-51, :136-151, :223-274)

What a request target says is decoded once, before everything else, and what `_serve_static` joins to the root,
normalises and compares is the decoded path; so no encoding gets past the comparison, and behind the root's name it
asks for a slash.

| here | there |
| --- | --- |
| `decode` | `unquote(urlparse(target).path)`, `none` where it raises |
| `Site` | `_routes` and `_prefix` by their methods and paths, and `_static` |
| `Disk` | `os.path.isdir` and `os.path.isfile`, false of a path with a NUL as of any that is not there |
| `Answer.file` | the path that is opened |
| `cwd` | `os.getcwd()`, when the directory is mounted and when a request comes |
-/

namespace Httpd

open Path (Text IsName Normal Inside abspath)

structure Disk where
  isdir : Text → Bool
  isfile : Text → Bool

structure Site where
  routes : List (String × Text)
  prefixes : List (String × Text)
  mounted : Option (Text × Text)

inductive Answer
  | handler (method : String) (path : Text)
  | file (path : Text)
  | status (code : ℕ)
  deriving DecidableEq

def index : Text := "index.html".toList

/-- `static`: at `/` the files win over the route of `GET /`. -/
def Site.static (cwd : Text) (site : Site) (urlPrefix directory : Text) : Site :=
  let stripped := (urlPrefix.reverse.dropWhile (· == '/')).reverse
  let mountedAt := if stripped = [] then ['/'] else stripped
  { site with
    mounted := some (mountedAt, abspath cwd directory)
    routes := if mountedAt = ['/'] then site.routes.filter (· ≠ ("GET", ['/'])) else site.routes }

/-- `_serve_static`; `none` where it leaves the path to others. -/
def serveStatic (cwd : Text) (disk : Disk) (urlPrefix root path : Text) : Option Answer :=
  if !urlPrefix.isPrefixOf path then none
  else
    let stripped := (path.drop urlPrefix.length).dropWhile (· == '/')
    let rel := if stripped = [] then index else stripped
    let target := abspath cwd (Path.join root rel)
    if !(root ++ ['/']).isPrefixOf target && target != root then some (.status 404)
    else
      let target := if disk.isdir target then Path.join target index else target
      if disk.isfile target then some (.file target) else none

/-- `_dispatch`. -/
def Site.dispatch (cwd : Text) (disk : Disk) (site : Site) (method : String) (path : Text) : Answer :=
  let method := if method = "HEAD" then "GET" else method
  match site.routes.find? (· == (method, path)) with
  | some (m, p) => .handler m p
  | none =>
    match site.prefixes.find? fun r => r.1 == method && r.2.isPrefixOf path with
    | some (m, p) => .handler m p
    | none =>
      let served := site.mounted.bind fun (urlPrefix, root) => serveStatic cwd disk urlPrefix root path
      served.getD (if site.routes.any fun r => r.2 == path then .status 405 else .status 404)

/-- The answer to a request; a target that cannot be taken apart is refused. -/
def Site.answer (cwd : Text) (disk : Disk) (site : Site) (decode : Bytes → Option String) (method : String)
    (target : Bytes) : Answer :=
  match decode target with
  | none => .status 400
  | some path => site.dispatch cwd disk method path.toList

theorem isName_index : IsName index := ⟨by decide, by decide, by decide, by decide⟩

/-- The path behind the mount is relative. -/
theorem relative (path : Text) :
    let stripped := path.dropWhile (· == '/')
    let rel := if stripped = [] then index else stripped
    rel ≠ [] ∧ Path.isabs rel = false := by
  dsimp only
  split
  · exact ⟨by decide, rfl⟩
  · rename_i hne
    refine ⟨hne, ?_⟩
    obtain ⟨c, rest, hc⟩ := List.exists_cons_of_ne_nil hne
    have hhead := List.head?_dropWhile_not (· == '/') path
    rw [hc] at hhead ⊢
    simpa [Path.isabs] using hhead

/-- What is served lies below the root or is the root, and what is refused is not there. -/
theorem serveStatic_cases {cwd : Text} {disk : Disk} {urlPrefix root path : Text} {k : ℕ} {names : List Text}
    (hroot : Normal k names root) {answer : Answer} (h : serveStatic cwd disk urlPrefix root path = some answer) :
    answer = .status 404 ∨ ∃ p, answer = .file p ∧ Inside root p ∧ disk.isfile p = true := by
  unfold serveStatic at h
  split at h
  · cases h
  · obtain ⟨hne, hrel⟩ := relative (path.drop urlPrefix.length)
    dsimp only at h hne hrel
    generalize (if (path.drop urlPrefix.length).dropWhile (· == '/') = [] then index
      else (path.drop urlPrefix.length).dropWhile (· == '/')) = rel at h hne hrel
    split at h
    · cases h
      exact .inl rfl
    · rename_i hchecked
      have hinside : Inside root (abspath cwd (Path.join root rel)) := by
        refine Path.inside_of_checked hroot hne hrel ?_
        by_contra hout
        rw [not_or] at hout
        refine hchecked ?_
        simp only [Bool.and_eq_true, Bool.not_eq_true', bne_iff_ne]
        exact ⟨Bool.eq_false_iff.2 fun hp => hout.1 (List.isPrefixOf_iff_prefix.1 hp), hout.2⟩
      have hfile : Inside root (if disk.isdir (abspath cwd (Path.join root rel)) then
          Path.join (abspath cwd (Path.join root rel)) index else abspath cwd (Path.join root rel)) := by
        split
        · exact Path.inside_join hinside isName_index
        · exact hinside
      generalize (if disk.isdir (abspath cwd (Path.join root rel)) then
          Path.join (abspath cwd (Path.join root rel)) index else abspath cwd (Path.join root rel)) = target at h hfile
      split at h
      · rename_i hthere
        cases h
        exact .inr ⟨_, rfl, hfile, hthere⟩
      · cases h

/-- **What is opened lies inside the directory that was mounted, whatever the target; else nothing is, and the answer
is an error or a handler's.** -/
theorem static_inside (cwd cwd' : Text) (hcwd : Path.isabs cwd = true) (disk : Disk) (site : Site)
    (urlPrefix directory : Text)
    (decode : Bytes → Option String) (method : String) (target : Bytes) :
    (∃ p, (site.static cwd urlPrefix directory).answer cwd' disk decode method target = .file p ∧
      Inside (abspath cwd directory) p ∧ disk.isfile p = true) ∨
    (∃ code ∈ [400, 404, 405], (site.static cwd urlPrefix directory).answer cwd' disk decode method target =
      .status code) ∨
    ∃ h ∈ (site.static cwd urlPrefix directory).routes ++ site.prefixes,
      (site.static cwd urlPrefix directory).answer cwd' disk decode method target = .handler h.1 h.2 := by
  obtain ⟨k, names, hroot⟩ := Path.abspath_normal hcwd directory
  generalize hanswer : (site.static cwd urlPrefix directory).answer cwd' disk decode method target = answer
  unfold Site.answer at hanswer
  split at hanswer
  · exact .inr (.inl ⟨400, by simp, hanswer.symm⟩)
  · rename_i path hpath
    unfold Site.dispatch at hanswer
    dsimp only at hanswer
    split at hanswer
    · rename_i m p hfound
      exact .inr (.inr ⟨(m, p), List.mem_append_left _ (List.mem_of_find?_eq_some hfound), hanswer.symm⟩)
    · split at hanswer
      · rename_i m p hfound
        exact .inr (.inr ⟨(m, p), List.mem_append_right _ (List.mem_of_find?_eq_some hfound), hanswer.symm⟩)
      · change (serveStatic cwd' disk _ (abspath cwd directory) path.toList).getD _ = answer at hanswer
        cases hserved : serveStatic cwd' disk _ (abspath cwd directory) path.toList with
        | none =>
          rw [hserved, Option.getD_none] at hanswer
          split at hanswer
          · exact .inr (.inl ⟨405, by simp, hanswer.symm⟩)
          · exact .inr (.inl ⟨404, by simp, hanswer.symm⟩)
        | some served =>
          rw [hserved, Option.getD_some] at hanswer
          subst hanswer
          rcases serveStatic_cases hroot hserved with hrefused | hfile
          · exact .inr (.inl ⟨404, by simp, hrefused⟩)
          · exact .inl hfile

/-- A target with two encoded dots. -/
theorem static_inside_dots :
    let site := Site.static "/srv".toList ⟨[("GET", "/healthz".toList)], [], none⟩ "/".toList "web".toList
    let answer := site.answer "/".toList ⟨fun _ => false, fun _ => true⟩ (fun _ => some "/../web-old/a") "GET"
      (ascii "/%2e%2e/web-old/a")
    (∃ p, answer = .file p ∧ Inside (abspath "/srv".toList "web".toList) p ∧ true = true) ∨
      (∃ code ∈ [400, 404, 405], answer = .status code) ∨
      ∃ h ∈ site.routes ++ [], answer = .handler h.1 h.2 :=
  static_inside "/srv".toList "/".toList (by decide) ⟨fun _ => false, fun _ => true⟩
    ⟨[("GET", "/healthz".toList)], [], none⟩
    "/".toList "web".toList (fun _ => some "/../web-old/a") "GET" (ascii "/%2e%2e/web-old/a")

/-- A directory beside the root whose name begins like it, and a file of the root. -/
example : serveStatic [] ⟨fun _ => false, fun _ => true⟩ "/".toList "/srv/web".toList "/../web-old/a".toList =
  some (.status 404) ∧
    serveStatic [] ⟨fun _ => false, fun _ => true⟩ "/".toList "/srv/web".toList "//js/./app.js".toList =
      some (.file "/srv/web/js/app.js".toList) := by
  decide

end Httpd
