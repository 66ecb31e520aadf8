/-
  Marginalia/Proofs/Workspace/Writing.lean
  ========================================
  **What writing does to a workspace.**  A change at a location leaves every other
  location and every folder in place, so paths lead where they led before.  A folder
  that was made is there (`Work.makeFolder_run`); a file that was written is found
  with its bytes, beside the same other files as before (`Work.writeFile_run`).
-/
import Marginalia.Proofs.Table
import Marginalia.Workspace.Basic

namespace Marginalia

/-! ### Folders of a tree -/

namespace FileTree

/-- A folder stands at a location. -/
def HasFolder (t : FileTree) (place : List String) : Prop :=
  ∃ entries, t.at? place = some (.folder entries)

theorem at?_append (t : FileTree) (above below : List String) :
    t.at? (above ++ below) = (t.at? above).bind (at? below) := by
  induction above generalizing t with
  | nil => rfl
  | cons name above ih =>
    cases t with
    | file bytes => rfl
    | folder entries =>
      simp only [List.cons_append, at?]
      cases Table.get? name entries with
      | none => rfl
      | some u => exact ih u

theorem HasFolder.of_append {t : FileTree} {above below : List String}
    (h : t.HasFolder (above ++ below)) : t.HasFolder above := by
  obtain ⟨entries, h⟩ := h
  rw [at?_append] at h
  obtain ⟨u, hu, hbelow⟩ := Option.bind_eq_some_iff.mp h
  cases u with
  | folder inner => exact ⟨inner, hu⟩
  | file bytes => cases below <;> simp [at?] at hbelow

theorem HasFolder.dropLast {t : FileTree} {place : List String} (h : t.HasFolder place) :
    t.HasFolder place.dropLast := by
  obtain ⟨below, heq⟩ := List.dropLast_prefix place
  rw [← heq] at h
  exact h.of_append

theorem HasFolder.of_cons {t : FileTree} {name : String} {place : List String}
    (h : t.HasFolder (name :: place)) :
    ∃ entries u, t = .folder entries ∧ Table.get? name entries = some u ∧ u.HasFolder place := by
  obtain ⟨inner, h⟩ := h
  cases t with
  | file bytes => simp [at?] at h
  | folder entries =>
    simp only [at?] at h
    cases hget : Table.get? name entries with
    | none => simp [hget] at h
    | some u =>
      rw [hget] at h
      exact ⟨entries, u, rfl, hget, inner, h⟩

/-! ### Changes in a tree -/

variable {f : Option FileTree → Except FileFault (Option FileTree)}

/-- A change in a folder puts there what it gives. -/
theorem exists_alter {t new : FileTree} {place : List String} {name : String}
    (hfolder : t.HasFolder place) (hf : f (t.at? (place ++ [name])) = .ok (some new)) :
    ∃ u, alter f (place ++ [name]) (some t) = .ok (some u) ∧
      u.at? (place ++ [name]) = some new := by
  induction place generalizing t with
  | nil =>
    obtain ⟨entries, h⟩ := hfolder
    obtain rfl : t = .folder entries := Option.some.inj h
    have hat : at? [name] (.folder entries) = Table.get? name entries := by
      cases hget : Table.get? name entries <;> simp [at?, hget]
    rw [List.nil_append, hat] at hf
    exact ⟨_, by simp only [List.nil_append, alter, hf]; rfl, by simp [at?, get?_place_some]⟩
  | cons c place ih =>
    obtain ⟨entries, u, rfl, hget, hu⟩ := hfolder.of_cons
    simp only [List.cons_append, at?, hget] at hf
    obtain ⟨u', halter, hat⟩ := ih hu hf
    refine ⟨.folder (FileTree.place c (some u') entries), ?_, ?_⟩
    · simp only [List.cons_append, alter, hget, halter]
      rfl
    · simpa [at?, get?_place_some] using hat

theorem alter_eq_error {t : FileTree} {place : List String} {name : String} {e : FileFault}
    (hfolder : t.HasFolder place) (hf : f (t.at? (place ++ [name])) = .error e) :
    alter f (place ++ [name]) (some t) = .error e := by
  induction place generalizing t with
  | nil =>
    obtain ⟨entries, h⟩ := hfolder
    obtain rfl : t = .folder entries := Option.some.inj h
    have hat : at? [name] (.folder entries) = Table.get? name entries := by
      cases hget : Table.get? name entries <;> simp [at?, hget]
    rw [List.nil_append, hat] at hf
    simp only [List.nil_append, alter, hf]
    rfl
  | cons c place ih =>
    obtain ⟨entries, u, rfl, hget, hu⟩ := hfolder.of_cons
    simp only [List.cons_append, at?, hget] at hf
    simp only [List.cons_append, alter, hget, ih hu hf]
    rfl

theorem alter_cons_eq_ok {t : FileTree} {name : String} {place : List String}
    {t' : Option FileTree} (h : alter f (name :: place) (some t) = .ok t') :
    ∃ entries new, t = .folder entries ∧ alter f place (Table.get? name entries) = .ok new ∧
      t' = some (.folder (FileTree.place name new entries)) := by
  cases t with
  | file bytes => simp [alter] at h
  | folder entries =>
    simp only [alter, bind, Except.bind] at h
    cases hnew : alter f place (Table.get? name entries) with
    | error e => simp [hnew] at h
    | ok new =>
      simp only [hnew, Except.ok.injEq] at h
      exact ⟨entries, new, rfl, hnew, h.symm⟩

theorem get?_place_other {name other : String} (h : other ≠ name) (t : Option FileTree)
    (entries : List (String × FileTree)) :
    Table.get? other (place name t entries) = Table.get? other entries := by
  cases t with
  | none => exact Table.get?_erase_other h entries
  | some t => exact Table.get?_set_other h t entries

/-- A change leaves alone the locations that are neither above nor below its own. -/
theorem at?_alter_other {t : FileTree} {t' : Option FileTree} {place other : List String}
    (h : alter f place (some t) = .ok t') (hbelow : ¬ place <+: other)
    (habove : ¬ other <+: place) : ∃ u, t' = some u ∧ u.at? other = t.at? other := by
  induction place generalizing t t' other with
  | nil => exact absurd List.nil_prefix hbelow
  | cons name place ih =>
    obtain ⟨entries, new, rfl, hnew, rfl⟩ := alter_cons_eq_ok h
    refine ⟨_, rfl, ?_⟩
    cases other with
    | nil => exact absurd List.nil_prefix habove
    | cons c other =>
      by_cases hc : c = name
      · subst hc
        have hbelow' : ¬ place <+: other := fun hp => hbelow (List.cons_prefix_cons.mpr ⟨rfl, hp⟩)
        have habove' : ¬ other <+: place := fun hp => habove (List.cons_prefix_cons.mpr ⟨rfl, hp⟩)
        cases hget : Table.get? c entries with
        | none =>
          -- nothing can be changed below a name that is not there
          rw [hget] at hnew
          cases place with
          | nil => exact absurd List.nil_prefix hbelow'
          | cons d place => simp [alter] at hnew
        | some s =>
          rw [hget] at hnew
          obtain ⟨u, rfl, hu⟩ := ih hnew hbelow' habove'
          simp [at?, get?_place_some, hget, hu]
      · simp [at?, get?_place_other hc]

/-- A change that leaves folders as they are keeps every folder in place. -/
theorem HasFolder.alter {t : FileTree} {t' : Option FileTree} {place other : List String}
    (hfolder : t.HasFolder other) (h : alter f place (some t) = .ok t')
    (hf : ∀ entries new, f (some (.folder entries)) = .ok new → new = some (.folder entries)) :
    ∃ u, t' = some u ∧ u.HasFolder other := by
  induction place generalizing t t' other with
  | nil =>
    obtain ⟨entries, rfl⟩ : ∃ entries, t = .folder entries := by
      obtain ⟨entries, htop⟩ := (show t.HasFolder ([] ++ other) from hfolder).of_append
      exact ⟨entries, Option.some.inj htop⟩
    exact ⟨_, hf entries t' h, hfolder⟩
  | cons name place ih =>
    obtain ⟨entries, new, rfl, hnew, rfl⟩ := alter_cons_eq_ok h
    refine ⟨_, rfl, ?_⟩
    cases other with
    | nil => exact ⟨_, rfl⟩
    | cons c other =>
      obtain ⟨_, s, heq, hget, hs⟩ := hfolder.of_cons
      obtain rfl := FileTree.folder.inj heq
      by_cases hc : c = name
      · subst hc
        rw [hget] at hnew
        obtain ⟨u, rfl, inner, hu⟩ := ih hs hnew
        exact ⟨inner, by simpa [at?, get?_place_some] using hu⟩
      · obtain ⟨inner, hs⟩ := hs
        exact ⟨inner, by simpa [at?, get?_place_other hc, hget] using hs⟩

theorem making_folder (entries : List (String × FileTree)) (new : Option FileTree)
    (h : making (some (.folder entries)) = .ok new) : new = some (.folder entries) :=
  (Except.ok.inj h).symm

theorem writing_folder (bytes : List UInt8) (entries : List (String × FileTree))
    (new : Option FileTree) (h : writing bytes (some (.folder entries)) = .ok new) :
    new = some (.folder entries) := by
  cases h

end FileTree

/-! ### Paths -/

namespace Workspace

/-- Every folder of one tree is one of the other. -/
def KeepsFolders (t u : FileTree) : Prop := ∀ place, t.HasFolder place → u.HasFolder place

theorem follow_cons {t : FileTree} {here : List String} (h : t.HasFolder here) (c : String)
    (cs : List String) :
    follow t here (c :: cs) = follow t (if c = ".." then here.dropLast else here ++ [c]) cs := by
  obtain ⟨entries, h⟩ := h
  simp [follow, h]

theorem follow_append (t : FileTree) (here cs ds : List String) :
    follow t here (cs ++ ds) = follow t here cs >>= fun place => follow t place ds := by
  induction cs generalizing here with
  | nil => rfl
  | cons c cs ih =>
    simp only [List.cons_append, follow]
    cases t.at? here with
    | none => rfl
    | some u =>
      cases u with
      | file bytes => rfl
      | folder entries => exact ih _

/-- A path leads where it led before, as long as no folder is lost. -/
theorem follow_of_keepsFolders {t u : FileTree} (h : KeepsFolders t u) {here cs place : List String}
    (hfollow : follow t here cs = .ok place) : follow u here cs = .ok place := by
  induction cs generalizing here with
  | nil => exact hfollow
  | cons c cs ih =>
    have hhere : t.HasFolder here := by
      simp only [follow] at hfollow
      cases hat : t.at? here with
      | none => simp [hat] at hfollow
      | some s =>
        cases s with
        | file bytes => simp [hat] at hfollow
        | folder entries => exact ⟨entries, hat⟩
    rw [follow_cons hhere] at hfollow
    rw [follow_cons (h here hhere)]
    exact ih hfollow

theorem isFolder_iff {w : Workspace} {p : Path} :
    w.isFolder p = true ↔ ∃ place, w.locate p = .ok place ∧ w.tree.HasFolder place := by
  simp only [isFolder, folder?, find]
  cases hlocate : w.locate p with
  | error e => simp [bind, Except.bind]
  | ok place =>
    simp only [bind, Except.bind]
    cases hat : w.tree.at? place with
    | none => simp [FileTree.HasFolder, hat]
    | some t => cases t <;> simp [FileTree.HasFolder, hat]

theorem locate_child {w : Workspace} {folder : Path} {place : List String} {name : String}
    (hplace : w.locate folder = .ok place) (hfolder : w.tree.HasFolder place)
    (hname : name ≠ "..") :
    w.locate ⟨folder.root, folder.parts ++ [name]⟩ = .ok (place ++ [name]) := by
  have hsplit : w.locate ⟨folder.root, folder.parts ++ [name]⟩ =
      w.locate folder >>= fun place => follow w.tree place [name] := follow_append _ _ _ _
  rw [hsplit, hplace]
  change follow w.tree place [name] = _
  rw [follow_cons hfolder, if_neg hname]
  rfl

theorem find_child {w : Workspace} {folder : Path} {place : List String} {name : String}
    (hplace : w.locate folder = .ok place) (hfolder : w.tree.HasFolder place)
    (hname : name ≠ "..") : w.find ⟨folder.root, folder.parts ++ [name]⟩ =
      match w.tree.at? (place ++ [name]) with
      | some t => .ok t
      | none => .error .missing := by
  rw [find, locate_child hplace hfolder hname]
  rfl

/-! ### Making folders -/

theorem alterAt_eq_ok {w w' : Workspace}
    {f : Option FileTree → Except FileFault (Option FileTree)} {place : List String}
    (h : w.alterAt f place = .ok w') :
    FileTree.alter f place (some w.tree) = .ok (some w'.tree) ∧ w'.cwd = w.cwd := by
  simp only [alterAt, bind, Except.bind] at h
  cases halter : FileTree.alter f place (some w.tree) with
  | error e => simp [halter] at h
  | ok t' =>
    cases t' with
    | none => simp [halter] at h
    | some t =>
      simp only [halter, Except.ok.injEq] at h
      subst h
      exact ⟨rfl, rfl⟩

theorem alterAt_of_alter {w : Workspace}
    {f : Option FileTree → Except FileFault (Option FileTree)} {place : List String} {t : FileTree}
    (h : FileTree.alter f place (some w.tree) = .ok (some t)) :
    w.alterAt f place = .ok { w with tree := t } := by
  simp [alterAt, h, bind, Except.bind]

theorem keepsFolders_of_alterAt {w w' : Workspace}
    {f : Option FileTree → Except FileFault (Option FileTree)} {place : List String}
    (h : w.alterAt f place = .ok w')
    (hf : ∀ entries new, f (some (.folder entries)) = .ok new → new = some (.folder entries)) :
    KeepsFolders w.tree w'.tree := by
  intro other hother
  obtain ⟨u, heq, hu⟩ := hother.alter (alterAt_eq_ok h).1 hf
  obtain rfl := Option.some.inj heq
  exact hu

theorem hasFolder_of_making {w w' : Workspace} {here : List String} {c : String}
    (h : w.alterAt FileTree.making (here ++ [c]) = .ok w') (hhere : w.tree.HasFolder here) :
    w'.tree.HasFolder (here ++ [c]) := by
  obtain ⟨halter, _⟩ := alterAt_eq_ok h
  have hput : ∀ entries, FileTree.making (w.tree.at? (here ++ [c])) = .ok (some (.folder entries)) →
      w'.tree.HasFolder (here ++ [c]) := by
    intro entries hmaking
    obtain ⟨u, hu, hat⟩ := FileTree.exists_alter hhere hmaking
    obtain rfl : u = w'.tree := by simpa [halter] using hu.symm
    exact ⟨entries, hat⟩
  cases hat : w.tree.at? (here ++ [c]) with
  | none => exact hput [] (by rw [hat]; rfl)
  | some t =>
    cases t with
    | folder entries => exact hput entries (by rw [hat]; rfl)
    | file bytes =>
      have hfile : FileTree.making (w.tree.at? (here ++ [c])) = .error .isFile := by
        rw [hat]
        rfl
      rw [FileTree.alter_eq_error hhere hfile] at halter
      cases halter

/-- Making the folders of a path keeps those that are there, and the path then leads to one. -/
theorem makeFrom_spec {w w' : Workspace} {here cs : List String}
    (h : w.makeFrom here cs = .ok w') (hhere : w.tree.HasFolder here) :
    w'.cwd = w.cwd ∧ KeepsFolders w.tree w'.tree ∧
      ∃ place, follow w'.tree here cs = .ok place ∧ w'.tree.HasFolder place := by
  induction cs generalizing w here with
  | nil =>
    obtain rfl := Except.ok.inj h
    exact ⟨rfl, fun _ => id, here, rfl, hhere⟩
  | cons c cs ih =>
    rw [makeFrom] at h
    by_cases hc : c = ".."
    · rw [if_pos hc] at h
      obtain ⟨hcwd, hkeeps, place, hfollow, hplace⟩ := ih h hhere.dropLast
      refine ⟨hcwd, hkeeps, place, ?_, hplace⟩
      rwa [follow_cons (hkeeps here hhere), if_pos hc]
    · rw [if_neg hc] at h
      cases hmake : w.alterAt FileTree.making (here ++ [c]) with
      | error e => cases e <;> simp [hmake] at h
      | ok v =>
        simp only [hmake] at h
        have hkeeps := keepsFolders_of_alterAt hmake FileTree.making_folder
        obtain ⟨hcwd, hkeeps', place, hfollow, hplace⟩ := ih h (hasFolder_of_making hmake hhere)
        refine ⟨hcwd.trans (alterAt_eq_ok hmake).2, fun p hp => hkeeps' p (hkeeps p hp), place, ?_,
          hplace⟩
        rwa [follow_cons (hkeeps' here (hkeeps here hhere)), if_neg hc]

theorem hasFolder_origin {w : Workspace} (h : w.tree.HasFolder w.cwd) (p : Path) :
    w.tree.HasFolder (w.origin p) := by
  unfold origin
  split
  · exact h
  · exact (show w.tree.HasFolder ([] ++ w.cwd) from h).of_append

end Workspace

/-! ### Work -/

namespace Work

open Workspace

theorem bind_run {α β : Type} {x : Work α} {next : α → Work β} {w w' : Workspace} {a : α}
    (h : x.run.run w = (.ok a, w')) : (x >>= next).run.run w = (next a).run.run w' := by
  rw [ExceptT.run_bind, StateT.run_bind, h]
  rfl

theorem change_run {p : Path} {f : Workspace → Except FileFault Workspace} {w w' : Workspace}
    (h : f w = .ok w') : (change p f).run.run w = (.ok (), w') := by
  have hget : (get : Work Workspace).run.run w = (.ok w, w) := rfl
  rw [change, bind_run hget, h]
  rfl

/-- Making a folder from a current directory that is one leaves the folder there. -/
theorem makeFolder_run {w w' : Workspace} {p : Path} (hcwd : w.tree.HasFolder w.cwd)
    (h : w.makeFrom (w.origin p) p.parts = .ok w') :
    (makeFolder p).run.run w = (.ok (), w') ∧ w'.isFolder p = true := by
  obtain ⟨hsame, _, place, hfollow, hplace⟩ := makeFrom_spec h (hasFolder_origin hcwd p)
  have horigin : w'.origin p = w.origin p := by simp [origin, hsame]
  refine ⟨change_run h, isFolder_iff.mpr ⟨place, ?_, hplace⟩⟩
  rw [locate, horigin, hfollow]

/-- Writing a file into a folder succeeds unless a folder has its name, the file is then found
there, and the other files of the folder are as before. -/
theorem writeFile_run {w : Workspace} {folder : Path} {name : String} (hname : name ≠ "..")
    (hfolder : w.isFolder folder = true)
    (hfree : w.isFolder ⟨folder.root, folder.parts ++ [name]⟩ = false) (bytes : List UInt8) :
    ∃ w', (writeFile ⟨folder.root, folder.parts ++ [name]⟩ bytes).run.run w = (.ok (), w') ∧
      w'.isFolder folder = true ∧
      w'.find ⟨folder.root, folder.parts ++ [name]⟩ = .ok (.file bytes) ∧
      ∀ other, other ≠ name → other ≠ ".." →
        w'.find ⟨folder.root, folder.parts ++ [other]⟩ =
          w.find ⟨folder.root, folder.parts ++ [other]⟩ := by
  obtain ⟨place, hplace, hhas⟩ := isFolder_iff.mp hfolder
  have hchild := locate_child hplace hhas hname
  have hwriting : FileTree.writing bytes (w.tree.at? (place ++ [name])) =
      .ok (some (.file bytes)) := by
    have hno : ¬ w.tree.HasFolder (place ++ [name]) := by
      intro hhas'
      rw [isFolder_iff.mpr ⟨_, hchild, hhas'⟩] at hfree
      cases hfree
    cases hat : w.tree.at? (place ++ [name]) with
    | none => rfl
    | some t =>
      cases t with
      | file old => rfl
      | folder entries => exact absurd ⟨entries, hat⟩ hno
  obtain ⟨u, halter, hat⟩ := FileTree.exists_alter hhas hwriting
  have hwrite := alterAt_of_alter halter
  have hkeeps := keepsFolders_of_alterAt hwrite (FileTree.writing_folder bytes)
  have hplace' : Workspace.locate { w with tree := u } folder = .ok place :=
    follow_of_keepsFolders hkeeps hplace
  have hhas' := hkeeps place hhas
  refine ⟨{ w with tree := u }, change_run ?_, isFolder_iff.mpr ⟨place, hplace', hhas'⟩, ?_, ?_⟩
  · rw [hchild]
    exact hwrite
  · rw [find_child hplace' hhas' hname, hat]
  · intro other hne hother
    have hlength : ∀ {c d : String}, c ≠ d → ¬ (place ++ [c]) <+: (place ++ [d]) := by
      intro c d hcd hpre
      have heq := hpre.eq_of_length (by simp)
      exact hcd (by simpa using heq)
    obtain ⟨u', heq, hsame⟩ := FileTree.at?_alter_other halter (hlength hne.symm) (hlength hne)
    obtain rfl := Option.some.inj heq
    rw [find_child hplace' hhas' hother, find_child hplace hhas hother, hsame]

end Work

end Marginalia
