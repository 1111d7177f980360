import Lox.CommandLine.Performance
import Lox.Proofs.Emission.Folders
import Lox.Proofs.Emission.Trees
import Lox.Proofs.Layout.Runs

/-!
Emitting trees and executing them: the tree that is emitted for a script is read as the script's statements, and what
it prints and how it ends is what the script prints and how it ends. Main statement: `emitted_tree_performs`.
-/
namespace Lox

theorem Text.unifyNewlines_of_not_mem {cs : List Char} (h : '\r' ∉ cs) : unifyNewlines cs = cs := by
  fun_induction unifyNewlines cs with
  | case1 => rfl
  | case2 cs ih => simp at h
  | case3 c cs _ ih =>
    obtain ⟨hc, hcs⟩ := List.ne_and_not_mem_of_not_mem_cons h
    rw [if_neg hc.symm, ih hcs]

namespace CommandLine

theorem ofBytes?_toUTF8 {text : String} (h : '\r' ∉ text.toList) : ofBytes? text.toUTF8 = some text := by
  have hbytes : String.fromUTF8? text.toUTF8 = some text := dif_pos text.isValidUTF8
  rw [ofBytes?, hbytes, Option.map_some, Text.unifyNewlines_of_not_mem h, String.ofList_toList]

section

variable {α β : Type} {F F' : Folder}

theorem bind_run {x : ExceptT Failure (StateM Folder) α} {a : α} (h : x F = (.ok a, F'))
    (f : α → ExceptT Failure (StateM Folder) β) : (x >>= f) F = f a F' := by
  change (ExceptT.bind x f) F = _
  simp [ExceptT.bind, ExceptT.mk, bind, StateT.bind, h, ExceptT.bindCont]

theorem lift_run {x : StateM Folder α} {a : α} (h : x F = (a, F')) :
    (ExceptT.lift x : ExceptT Failure (StateM Folder) α) F = (.ok a, F') := by
  simp [ExceptT.lift, ExceptT.mk, Functor.map, StateT.map, h]

theorem ok_run (a : α) (F : Folder) :
    (liftM (Except.ok a : Except Failure α) : ExceptT Failure (StateM Folder) α) F = (.ok a, F) :=
  rfl

variable {path place : String} {bytes : ByteArray}

theorem readText_run {text : String} (h : F.place? path = some place) (hbytes : Entries.get? place F = some bytes)
    (htext : ofBytes? bytes = some text) : readText Folder.disk path F = (.ok text, F) := by
  have hread : Folder.disk.read path F = (.ok bytes, F) := by
    change (F.read path, F) = _
    rw [Folder.read_of_place? h hbytes]
  refine (bind_run (lift_run hread) _).trans ?_
  dsimp only
  rw [htext]
  rfl

theorem writeText_run (h : F.place? path = some place) (text : String) :
    writeText Folder.disk path text F = (.ok (), Entries.set place text.toUTF8 F) := by
  have hwrite : Folder.disk.write path text.toUTF8 F = (.ok (), Entries.set place text.toUTF8 F) := by
    unfold Folder.disk
    dsimp only
    rw [Folder.write_of_place? h]
  exact bind_run (lift_run hwrite) _

end

/-- Notes are kept in a file of their own, or not at all. -/
def Arguments.Apart (a : Arguments) (script tree : String) (F : Folder) : Prop :=
  a.verbosity = 0 ∨ ∃ path notes, a.debugFile = some path ∧ F.place? path = some notes ∧ notes ≠ script ∧ notes ≠ tree ∧
    (tree ++ "/").isPrefixOf notes = false ∧ (notes ++ "/").isPrefixOf tree = false

structure Spares (a : Arguments) (k q : String) (F F' : Folder) : Prop where
  script : ∀ path, F.place? path = some k → Entries.has k F = true → F'.place? path = some k
  tree : ∀ path, F.place? path = some q → F'.place? path = some q
  get? : ∀ place ∈ [k, q], Entries.get? place F' = Entries.get? place F
  apart : a.Apart k q F'

section

variable {a : Arguments} {k q : String} {F : Folder}

theorem keepNotes_run (h : a.Apart k q F) (notes : Array Note) :
    ∃ F', keepNotes Folder.disk a notes F = (.ok (), F') ∧ Spares a k q F F' := by
  by_cases hv : a.verbosity = 0
  · refine ⟨F, ?_, fun _ h _ => h, fun _ h => h, fun _ _ => rfl, h⟩
    rw [keepNotes, if_pos hv]
    rfl
  · obtain ⟨path, d, hfile, hd, hk, hq, hinside, houtside⟩ := h.resolve_left hv
    refine ⟨Entries.set d (notesText notes).toUTF8 F, ?_, ?_, ?_, ?_, ?_⟩
    · rw [keepNotes, if_neg hv, hfile]
      exact writeText_run hd _
    · exact fun path hplace hhas => Folder.place?_set hd hplace (.inr (.inl hhas)) _
    · exact fun path hplace => Folder.place?_set hd hplace (.inr (.inr hinside)) _
    · intro place hplace
      apply Entries.get?_set_of_ne
      rintro rfl
      simp [hk, hq] at hplace
    · exact .inr ⟨path, d, hfile, Folder.place?_set hd hd (.inl rfl) _, hk, hq, hinside, houtside⟩

theorem Arguments.Apart.set (h : a.Apart k q F) {path : String} (hq : F.place? path = some q) (bytes : ByteArray) :
    a.Apart k q (Entries.set q bytes F) :=
  h.imp_right fun ⟨path, d, hfile, hd, hk, hne, hinside, houtside⟩ =>
    ⟨path, d, hfile, Folder.place?_set hq hd (.inr (.inr houtside)) bytes, hk, hne, hinside, houtside⟩

end

section

variable {a : Arguments} {f : FrontEnd} {s : Session} {k q path source text : String} {bytes : ByteArray} {F : Folder}

theorem runScript_run (hk : F.place? path = some k) (hbytes : Entries.get? k F = some bytes)
    (hsource : ofBytes? bytes = some source) (hnotes : a.Apart k q F) :
    ∃ F', runScript Folder.disk a s path F = (.ok (.ofReport (s.run source).1), F') := by
  obtain ⟨F', hkeep, -⟩ := keepNotes_run hnotes (s.run source).1.notes
  refine ⟨F', (bind_run (readText_run hk hbytes hsource) _).trans ?_⟩
  exact bind_run hkeep _

theorem runTree_run {v : Value} {ns : List Node} (hq : F.place? path = some q) (hbytes : Entries.get? q F = some text.toUTF8)
    (htext : '\r' ∉ text.toList) (hread : Json.read text = .ok v) (hns : Node.readProgram v = .ok ns)
    (hnotes : a.Apart k q F) :
    ∃ F', runTree Folder.disk a s path F = (.ok (.ofReport (s.runStatements ns).1), F') := by
  obtain ⟨F', hkeep, -⟩ := keepNotes_run hnotes (s.runStatements ns).1.notes
  refine ⟨F', (bind_run (readText_run hq hbytes (ofBytes?_toUTF8 htext)) _).trans ?_⟩
  rw [hread]
  refine (bind_run (ok_run v F) _).trans ?_
  rw [hns]
  refine (bind_run (ok_run ns F) _).trans ?_
  exact bind_run hkeep _

theorem emitTree_run {body : List Value} (hk : F.place? path = some k) (hbytes : Entries.get? k F = some bytes)
    (hsource : ofBytes? bytes = some source) (hq : F.place? (path ++ ".ast.json") = some q)
    (haccepted : (s.frontEnd.read source).diagnostics = [])
    (hbody : Node.write (s.frontEnd.read source).statements = .ok body) (hnotes : a.Apart k q F) :
    ∃ F', emitTree Folder.disk a s path F = (.ok (.finished 0 (path ++ ".ast.json" ++ "\n") ""), F') ∧ a.Apart k q F' ∧
      (∀ path, F.place? path = some q → F'.place? path = some q) ∧
      Entries.get? q F' = some (Json.write Json.indented (Node.programRecord body)).toUTF8 := by
  let text := Json.write Json.indented (Node.programRecord body)
  obtain ⟨F₁, hkeep, hspares⟩ := keepNotes_run hnotes (s.settings.trace (s.frontEnd.read source))
  let F₂ := Entries.set q "".toUTF8 F₁
  let F₃ := Entries.set q text.toUTF8 F₂
  have hq₁ := hspares.tree _ hq
  have hstay₂ : ∀ path, F₁.place? path = some q → Folder.place? F₂ path = some q :=
    fun path hplace => Folder.place?_set hq₁ hplace (.inl rfl) _
  have hq₂ := hstay₂ _ hq₁
  have hstay₃ : ∀ path, Folder.place? F₂ path = some q → Folder.place? F₃ path = some q :=
    fun path hplace => Folder.place?_set hq₂ hplace (.inl rfl) _
  refine ⟨F₃, ?_, (hspares.apart.set hq₁ _).set hq₂ _, fun path hplace => hstay₃ _ (hstay₂ _ (hspares.tree _ hplace)),
    Entries.get?_set_self _ _ _⟩
  refine (bind_run (readText_run hk hbytes hsource) _).trans ((bind_run hkeep _).trans ?_)
  rw [if_neg (not_not_intro haccepted)]
  refine (bind_run (writeText_run hq₁ "") _).trans ?_
  rw [hbody]
  refine (bind_run (ok_run body F₂) _).trans ?_
  exact bind_run (writeText_run hq₂ text) _

end

theorem perform_run {a : Arguments} {f : FrontEnd} {lines : List String} {task : Task} {F F₁ F₂ : Folder} {p : Performance}
    (htask : a.task? = some task) (hf : a.frontEnd = some f) (hkeep : keepNotes Folder.disk a #[] F = (.ok (), F₁))
    (hperform : task.perform Folder.disk a (.start f a.verbosity) lines F₁ = (.ok p, F₂)) :
    a.perform Folder.disk lines F = (p, F₂) := by
  have hsession : session a = .ok (.start f a.verbosity) := by
    rw [session, hf]
    rfl
  let work : ExceptT Failure (StateM Folder) Performance := do
    keepNotes Folder.disk a #[]
    task.perform Folder.disk a (← session a) lines
  have hwork : work F = (.ok p, F₂) := by
    refine (bind_run hkeep _).trans ?_
    rw [hsession]
    exact (bind_run (ok_run (Session.start f a.verbosity) F₁) _).trans hperform
  unfold Arguments.perform
  rw [htask]
  change (StateT.bind work.run _) F = _
  unfold StateT.bind ExceptT.run
  rw [hwork]
  rfl

theorem place?_empty (F : Folder) : F.place? (Path.normal "") = none := by
  have hpath : Path.normal "" = "." := by decide
  have hdirectory : F.target "." = .ok (.directory []) := rfl
  rw [hpath, Folder.place?, hdirectory]

theorem ne_empty_of_place? {F : Folder} {path place : String} (h : F.place? (Path.normal path) = some place) :
    path ≠ "" := by
  rintro rfl
  rw [place?_empty] at h
  cases h

theorem ofReport_eq {r r' : Report} (houtcome : r.outcome = r'.outcome) (hprinted : r.printed = r'.printed) :
    Performance.ofReport r = Performance.ofReport r' := by
  simp only [Performance.ofReport, Report.out, Report.err, houtcome, hprinted]

theorem ofReport_run {s : Session} {source : String} (h : (s.frontEnd.read source).diagnostics = []) :
    Performance.ofReport (s.runStatements (s.frontEnd.read source).statements).1 = .ofReport (s.run source).1 := by
  unfold Session.run Session.runReading Session.runStatements
  dsimp only
  rw [if_pos h]
  obtain ⟨houtcome, hprinted, -⟩ := Session.execute_notes s.frontEnd s.frontEnd s.settings s.globals #[]
    (s.settings.note 1 ("run: " ++ toString source.length ++ " characters") ++ s.settings.trace (s.frontEnd.read source))
    (s.frontEnd.read source).statements
  exact ofReport_eq houtcome hprinted

/-- A script in a folder, a place beside it for its tree, a path that leads to the tree, and notes that are kept in a
file of their own or not at all. -/
structure Workplace (a : Arguments) (script tree source k q : String) (F : Folder) : Prop where
  place : F.place? (Path.normal script) = some k
  content : ∃ bytes, Entries.get? k F = some bytes ∧ ofBytes? bytes = some source
  beside : F.place? (Path.normal script ++ ".ast.json") = some q
  leads : F.place? (Path.normal tree) = some q
  apart : a.Apart k q F

/-- The tree of a program that reads is written, and its text is read as the tree and the program; to execute the tree
that is emitted for a script is to run the script, in what is printed and in how it ends. -/
theorem emitted_tree_performs {f : FrontEnd} {source : String} (haccepted : (f.read source).diagnostics = [])
    (hwritten : Node.write (f.read source).statements ≠ .error .tooDeep)
    (hread : ∀ body, Node.write (f.read source).statements = .ok body →
      Json.read (Json.write Json.indented (Node.programRecord body)) ≠ .error .tooDeep)
    (hnumbers : Rereadable (scan source).tokens) :
    ∃ body, Node.write (f.read source).statements = .ok body ∧
      Json.read (Json.write Json.indented (Node.programRecord body)) = .ok (Node.programRecord body) ∧
      Node.readProgram (Node.programRecord body) = .ok (f.read source).statements ∧
      ∀ {a : Arguments} {script tree k q : String} {F : Folder} (lines : List String), a.frontEnd = some f →
        Workplace a script tree source k q F → ∃ p F₁ F₂ F₃,
          Arguments.perform Folder.disk { a with emit := some script, tree := none, scripts := [] } lines F =
            (.finished 0 (Path.normal script ++ ".ast.json" ++ "\n") "", F₁) ∧
          Entries.get? q F₁ = some (Json.write Json.indented (Node.programRecord body)).toUTF8 ∧
          Arguments.perform Folder.disk { a with emit := none, tree := some tree, scripts := [] } lines F₁ = (p, F₂) ∧
          Arguments.perform Folder.disk { a with emit := none, tree := none, scripts := [script] } lines F = (p, F₃) := by
  obtain ⟨body, hbody, hrereads, hprogram⟩ :=
    Node.readProgram_write (scan_scanned source) hnumbers (isStatement_of_read haccepted) hwritten
  have hjson := Json.read_write hrereads Json.indented (hread body hbody)
  refine ⟨body, hbody, hjson, hprogram, ?_⟩
  intro a script tree k q F lines hf hplace
  obtain ⟨bytes, hbytes, hsource⟩ := hplace.content
  have hscript := ne_empty_of_place? hplace.place
  have htree := ne_empty_of_place? hplace.leads
  have hk : Entries.has k F = true := by
    rw [Entries.has, hbytes]
    rfl
  let s : Session := .start f a.verbosity
  let emitting : Arguments := { a with emit := some script, tree := none, scripts := [] }
  let executing : Arguments := { a with emit := none, tree := some tree, scripts := [] }
  let running : Arguments := { a with emit := none, tree := none, scripts := [script] }
  -- notes are kept before the work and again in it; each time the script and the tree stay where they are
  have hnotes : emitting.Apart k q F := hplace.apart
  have hnotes' : running.Apart k q F := hplace.apart
  obtain ⟨F', hkeep, hspares⟩ := keepNotes_run hnotes #[]
  have hbytes' : Entries.get? k F' = some bytes := by
    rw [hspares.get? k (by simp), hbytes]
  have hk' := hspares.script _ hplace.place hk
  obtain ⟨F₁, hemit, hnotes₁, hstay, htext⟩ := emitTree_run (s := s) hk' hbytes' hsource (hspares.tree _ hplace.beside)
    haccepted hbody hspares.apart
  have hnotes₁' : executing.Apart k q F₁ := hnotes₁
  obtain ⟨F₁', hkeep₁, hspares₁⟩ := keepNotes_run hnotes₁' #[]
  have htext' := hspares₁.get? q (by simp)
  rw [htext] at htext'
  obtain ⟨F₂, hexecute⟩ := runTree_run (s := s) (hspares₁.tree _ (hstay _ (hspares.tree _ hplace.leads))) htext'
    (Json.not_mem_chars hrereads Json.indented 0) hjson hprogram hspares₁.apart
  obtain ⟨F₀, hkeep₀, hspares₀⟩ := keepNotes_run hnotes' #[]
  have hbytes₀ : Entries.get? k F₀ = some bytes := by
    rw [hspares₀.get? k (by simp), hbytes]
  obtain ⟨F₃, hrun⟩ := runScript_run (s := s) (hspares₀.script _ hplace.place hk) hbytes₀ hsource hspares₀.apart
  refine ⟨.ofReport (s.run source).1, F₁, F₂, F₃, ?_, htext, ?_, ?_⟩
  · have htask : emitting.task? = some (.emit script) := by
      simp [emitting, Arguments.task?, Option.filter, hscript]
    exact perform_run htask hf hkeep hemit
  · have htask : executing.task? = some (.tree tree) := by
      simp [executing, Arguments.task?, Option.filter, htree]
    rw [← ofReport_run (s := s) haccepted]
    exact perform_run htask hf hkeep₁ hexecute
  · have htask : running.task? = some (.script script) := rfl
    exact perform_run htask hf hkeep₀ hrun

theorem emitted_tree_performs_print :
    let source := "var s = \"\\\n\"; print s + \"é\"; if (nil) print -1.5;"
    let F : Folder := [("s", source.toUTF8)]
    let a : Arguments := { Arguments.start with verbosity := 4 }
    ∃ body, Node.write (FrontEnd.descent.read source).statements = .ok body ∧
      Json.read (Json.write Json.indented (Node.programRecord body)) = .ok (Node.programRecord body) ∧
      Node.readProgram (Node.programRecord body) = .ok (FrontEnd.descent.read source).statements ∧
      ∃ p F₁ F₂ F₃,
        Arguments.perform Folder.disk { a with emit := some "s" } [] F = (.finished 0 "s.ast.json\n" "", F₁) ∧
        Arguments.perform Folder.disk { a with tree := some "s.ast.json" } [] F₁ = (p, F₂) ∧
        Arguments.perform Folder.disk { a with scripts := ["s"] } [] F = (p, F₃) := by
  intro source F a
  have haccepted : (FrontEnd.descent.read source).diagnostics = [] := by decide +kernel
  have hwritten : Node.write (FrontEnd.descent.read source).statements ≠ .error .tooDeep := by
    have hok : (Node.write (FrontEnd.descent.read source).statements).isOk = true := by decide +kernel
    intro he
    rw [he] at hok
    cases hok
  have hnumbers : Rereadable (scan source).tokens := by decide +kernel
  have hread : ∀ body, Node.write (FrontEnd.descent.read source).statements = .ok body →
      Json.read (Json.write Json.indented (Node.programRecord body)) ≠ .error .tooDeep := by
    have hdepth : (Node.write (FrontEnd.descent.read source).statements).toOption.all (fun body =>
        (Node.programRecord body).depth ≤ Json.depthLimit) = true := by decide +kernel
    intro body hbody
    obtain ⟨body', hbody', hrereads, -⟩ :=
      Node.readProgram_write (scan_scanned source) hnumbers (isStatement_of_read haccepted) hwritten
    obtain rfl : body' = body := Except.ok.inj (hbody'.symm.trans hbody)
    rw [hbody] at hdepth
    rw [Json.read_write_of_depth hrereads Json.indented (of_decide_eq_true hdepth)]
    nofun
  obtain ⟨body, hbody, hjson, hprogram, hperform⟩ := emitted_tree_performs haccepted hwritten hread hnumbers
  have hname : Path.normal "s" = "s" := by decide
  have hscript : F.place? (Path.normal "s") = some "s" := rfl
  have hbeside : F.place? (Path.normal "s" ++ ".ast.json") = some "s.ast.json" := rfl
  have htree : F.place? (Path.normal "s.ast.json") = some "s.ast.json" := rfl
  have hnotes : F.place? "debug.txt" = some "debug.txt" := rfl
  have hapart : a.Apart "s" "s.ast.json" F :=
    .inr ⟨"debug.txt", "debug.txt", rfl, hnotes, by decide, by decide, by decide +kernel, by decide +kernel⟩
  have hcontent : ofBytes? source.toUTF8 = some source := ofBytes?_toUTF8 (by decide +kernel)
  obtain ⟨p, F₁, F₂, F₃, hemit, -, hexecute, hrun⟩ :=
    hperform [] rfl ⟨hscript, ⟨_, rfl, hcontent⟩, hbeside, htree, hapart⟩
  rw [hname] at hemit
  exact ⟨body, hbody, hjson, hprogram, p, F₁, F₂, F₃, hemit, hexecute, hrun⟩

end CommandLine

end Lox
