import DistLabs.MR.Control

/-! # The files of a job

    What the files of a job hold, in every run of it. A temporary file belongs to the worker that
    has created it until it is renamed, and is complete by then, so what is renamed to `mr-X-Y` or
    `mr-out-Y` is complete, also when several workers execute the task. -/

namespace DistLabs.MR

open Grouping

namespace Setting

variable (S : Setting)

def mapFile (f : String) : List KeyValue := S.mapf f (S.contents f)

/-- The pairs of map task `x`. -/
def mapOut (x : ℕ) : List KeyValue := S.mapFile (S.files.getD x "")

/-- The intermediate files of reduce task `y`. -/
def names (y : ℕ) : List String := (List.range S.files.length).map fun x : ℕ => mrName x y

/-- The file is `mr-X-y` for a map task `X`, and these are the pairs of `X` that belong there. -/
def Version (y : ℕ) (name : String) (kva : List KeyValue) : Prop :=
  ∃ x < S.files.length, name = mrName x y ∧ kva.Perm (bucket S.nReduce y (S.mapOut x))

/-- The lines are the output of a `doReduce` that has read all intermediate files of the task. -/
def IsOutput (y : ℕ) (ls : List Line) : Prop :=
  ∃ fs contents, fs.Perm (S.names y) ∧ List.Forall₂ (S.Version y) fs contents ∧
    ls = doReduce S.reducef contents

/-- A name that no `Glob` finds. -/
def Spare (name : String) : Prop := ∀ y < S.nReduce, globMatches y name = false

/-- What is under a name that `Glob` finds is a complete intermediate file. -/
def TmpOk (tmp : Dir) : Prop := ∀ name file, tmp.lookup name = some file →
  S.Spare name ∨ ∃ y < S.nReduce, ∃ kva, file = .pairs kva ∧ S.Version y name kva

/-- Every intermediate file of map task `x` exists. -/
def HasMap (tmp : Dir) (x : ℕ) : Prop :=
  ∀ y < S.nReduce, (tmp.lookup (mrName x y)).isSome = true

/-- The output file of reduce task `y` is there and complete. -/
def HasOut (out : Dir) (y : ℕ) : Prop :=
  ∃ ls, out.lookup (outName y) = some (.lines ls) ∧ S.IsOutput y ls

/-- No intermediate file has gone. -/
def Extends (tmp tmp' : Dir) : Prop := ∀ x : ℕ, ∀ y < S.nReduce,
  (tmp.lookup (mrName x y)).isSome = true → (tmp'.lookup (mrName x y)).isSome = true

/-- A reply that hands out map task `x`. -/
structure IsMap (replys : RequestTaskReplys) (x : ℕ) : Prop where
  type : replys.taskType = .MapTask
  lt : x < S.files.length
  id : replys.taskID = x
  files : replys.inputFiles = [S.files.getD x ""]
  num : replys.reduceNum = S.nReduce

/-- A reply that hands out reduce task `y`. -/
structure IsReduce (tmp : Dir) (replys : RequestTaskReplys) (y : ℕ) : Prop where
  type : replys.taskType = .ReduceTask
  lt : y < S.nReduce
  id : replys.taskID = y
  files : replys.inputFiles.Perm (S.names y)
  maps : ∀ x < S.files.length, S.HasMap tmp x

/-- The temporary file for bucket `n` of map task `x` is complete. -/
def Flushed (tmp : Dir) (names : List String) (x n : ℕ) : Prop :=
  ∃ name kva, names[n]? = some name ∧ tmp.lookup name = some (.pairs kva) ∧
    kva.Perm (bucket S.nReduce n (S.mapOut x))

end Setting

/-- The temporary files of a worker. -/
def WorkerPc.temps : WorkerPc → List String
  | .creating _ _ names => names
  | .flushing _ _ names _ => names
  | .renaming _ names i => names.drop i
  | .printing _ _ _ _ name => [name]
  | _ => []

/-- How far a worker has come with its task. -/
inductive Fact (S : Setting) (tmp out : Dir) : WorkerPc → Prop
  | idle : Fact S tmp out .idle
  | requesting {k : ℕ} : Fact S tmp out (.requesting k)
  | waiting : Fact S tmp out .waiting
  | exited : Fact S tmp out .exited
  | mapping {replys : RequestTaskReplys} {rest : List String} {kva : List KeyValue} {x : ℕ}
      (reply : S.IsMap replys x) (pairs : (kva ++ rest.flatMap S.mapFile).Perm (S.mapOut x)) :
      Fact S tmp out (.mapping replys rest kva)
  | creating {replys : RequestTaskReplys} {kva : List KeyValue} {names : List String} {x : ℕ}
      (reply : S.IsMap replys x) (pairs : kva.Perm (S.mapOut x))
      (count : names.length ≤ S.nReduce) : Fact S tmp out (.creating replys kva names)
  | flushing {replys : RequestTaskReplys} {kva : List KeyValue} {names : List String} {i x : ℕ}
      (reply : S.IsMap replys x) (pairs : kva.Perm (S.mapOut x)) (count : names.length = S.nReduce)
      (flushed : ∀ n < i, S.Flushed tmp names x n) : Fact S tmp out (.flushing replys kva names i)
  | moving {replys : RequestTaskReplys} {names : List String} {i x : ℕ} (reply : S.IsMap replys x)
      (count : names.length = S.nReduce)
      (flushed : ∀ n, i ≤ n → n < S.nReduce → S.Flushed tmp names x n)
      (renamed : ∀ n < S.nReduce, n < i → (tmp.lookup (mrName x n)).isSome = true) :
      Fact S tmp out (.renaming replys names i)
  | reading {replys : RequestTaskReplys} {fs rest : List String} {contents : List (List KeyValue)}
      {y : ℕ} (reply : S.IsReduce tmp replys y) (files : replys.inputFiles = fs ++ rest)
      (read : List.Forall₂ (S.Version y) fs contents) :
      Fact S tmp out (.reading replys rest (decodeAll contents))
  | printing {replys : RequestTaskReplys} {kva : AList fun _ : String => List String}
      {keys : List String} {printed : List Line} {name : String} {y : ℕ}
      (reply : S.IsReduce tmp replys y)
      (lines : S.IsOutput y (printed ++ keys.map (reduceKey S.reducef kva)))
      (file : tmp.lookup name = some (.lines printed)) :
      Fact S tmp out (.printing replys kva keys printed name)
  | mapped {replys : RequestTaskReplys} {x : ℕ} (reply : S.IsMap replys x)
      (files : S.HasMap tmp x) : Fact S tmp out (.reporting replys)
  | reduced {replys : RequestTaskReplys} {y : ℕ} (reply : S.IsReduce tmp replys y)
      (file : S.HasOut out y) : Fact S tmp out (.reporting replys)

variable {S : Setting} {tmp tmp' out out' : Dir} {name : String} {file : File} {x y : ℕ}

/-! ### Intermediate files -/

theorem Setting.Spare.ne_mrName (h : S.Spare name) (hy : y < S.nReduce) : mrName x y ≠ name := by
  rintro rfl
  have hmatch := h y hy
  rw [globMatches_mrName.mpr rfl] at hmatch
  cases hmatch

theorem Setting.nodup_names (S : Setting) (y : ℕ) : (S.names y).Nodup := by
  refine List.nodup_range.map fun a b heq => ?_
  have hname : mrName a y = mrName b y := heq
  exact (mrName_inj hname).1

theorem Setting.mem_names : name ∈ S.names y ↔ ∃ x < S.files.length, mrName x y = name := by
  simp [names]

namespace Setting.TmpOk

theorem pairs (h : S.TmpOk tmp) (hy : y < S.nReduce) (hl : tmp.lookup (mrName x y) = some file) :
    ∃ kva, file = .pairs kva ∧ kva.Perm (bucket S.nReduce y (S.mapOut x)) := by
  rcases h _ _ hl with hspare | ⟨y', -, kva, rfl, x', -, hname, hperm⟩
  · exact absurd rfl (hspare.ne_mrName hy)
  · obtain ⟨rfl, rfl⟩ := mrName_inj hname
    exact ⟨kva, rfl, hperm⟩

/-- What a reduce task reads from one of its files. -/
theorem decode (h : S.TmpOk tmp) (hmaps : ∀ x < S.files.length, S.HasMap tmp x) (hy : y < S.nReduce)
    (hname : name ∈ S.names y) : S.Version y name (tmp.decode name) := by
  obtain ⟨x, hx, rfl⟩ := Setting.mem_names.mp hname
  obtain ⟨file, hl⟩ := Option.isSome_iff_exists.mp (hmaps x hx y hy)
  obtain ⟨kva, rfl, hperm⟩ := h.pairs hy hl
  refine ⟨x, hx, rfl, ?_⟩
  rw [Dir.decode, hl]
  exact hperm

/-- Once all map tasks have their files, `Glob` finds the files of a reduce task and no others. -/
theorem glob (h : S.TmpOk tmp) (hmaps : ∀ x < S.files.length, S.HasMap tmp x) (hy : y < S.nReduce) :
    (tmp.glob y).Perm (S.names y) := by
  refine (List.perm_ext_iff_of_nodup (Dir.nodup_glob ..) (S.nodup_names y)).mpr fun name => ?_
  rw [Dir.mem_glob, Setting.mem_names]
  constructor
  · rintro ⟨hl, hmatch⟩
    obtain ⟨file, hl⟩ := Option.isSome_iff_exists.mp hl
    rcases h _ _ hl with hspare | ⟨y', -, kva, -, x, hx, rfl, -⟩
    · cases (hspare y hy).symm.trans hmatch
    · exact ⟨x, hx, by rw [globMatches_mrName.mp hmatch]⟩
  · rintro ⟨x, hx, rfl⟩
    exact ⟨hmaps x hx y hy, globMatches_mrName.mpr rfl⟩

theorem write (h : S.TmpOk tmp) (hname : S.Spare name) : S.TmpOk (tmp.insert name file) := by
  intro name' file' hl
  rcases eq_or_ne name' name with rfl | hne
  · exact .inl hname
  · rw [AList.lookup_insert_ne hne] at hl
    exact h name' file' hl

theorem erase (h : S.TmpOk tmp) : S.TmpOk (tmp.erase name) := by
  intro name' file' hl
  rcases eq_or_ne name' name with rfl | hne
  · rw [AList.lookup_erase] at hl
    cases hl
  · rw [AList.lookup_erase_ne hne] at hl
    exact h name' file' hl

theorem insert (h : S.TmpOk tmp) {kva : List KeyValue} (hx : x < S.files.length)
    (hy : y < S.nReduce) (hperm : kva.Perm (bucket S.nReduce y (S.mapOut x))) :
    S.TmpOk (tmp.insert (mrName x y) (.pairs kva)) := by
  intro name' file' hl
  rcases eq_or_ne name' (mrName x y) with rfl | hne
  · rw [AList.lookup_insert] at hl
    cases hl
    exact .inr ⟨y, hy, kva, rfl, x, hx, rfl, hperm⟩
  · rw [AList.lookup_insert_ne hne] at hl
    exact h name' file' hl

end Setting.TmpOk

theorem isSome_lookup_insert {name' : String} (h : (tmp.lookup name').isSome = true) :
    ((tmp.insert name file).lookup name').isSome = true := by
  rcases eq_or_ne name' name with rfl | hne
  · rw [AList.lookup_insert]
    rfl
  · rwa [AList.lookup_insert_ne hne]

theorem Setting.extends_insert (S : Setting) : S.Extends tmp (tmp.insert name file) :=
  fun _ _ _ => isSome_lookup_insert

theorem Setting.extends_erase (h : S.Spare name) : S.Extends tmp (tmp.erase name) := by
  intro x y hy hl
  rwa [AList.lookup_erase_ne (h.ne_mrName hy)]

theorem Setting.hasOut_insert {ls : List Line} (hls : S.IsOutput y ls) :
    S.HasOut (out.insert (outName y) (.lines ls)) y :=
  ⟨ls, AList.lookup_insert .., hls⟩

/-- A complete output file may replace another. -/
theorem Setting.HasOut.insert {ls : List Line} (hls : S.IsOutput y ls) {y' : ℕ}
    (h : S.HasOut out y') : S.HasOut (out.insert (outName y) (.lines ls)) y' := by
  rcases eq_or_ne y' y with rfl | hne
  · exact S.hasOut_insert hls
  · obtain ⟨ls', hl, hls'⟩ := h
    exact ⟨ls', (AList.lookup_insert_ne fun heq => hne (outName_inj heq)).trans hl, hls'⟩

/-! ### The other workers -/

theorem Setting.HasMap.mono (h : S.HasMap tmp x) (he : S.Extends tmp tmp') : S.HasMap tmp' x :=
  fun y hy => he x y hy (h y hy)

theorem Setting.IsReduce.mono {replys : RequestTaskReplys} (h : S.IsReduce tmp replys y)
    (he : S.Extends tmp tmp') : S.IsReduce tmp' replys y :=
  { h with maps := fun x hx => (h.maps x hx).mono he }

theorem Setting.Flushed.frame {names : List String} {n : ℕ} (h : S.Flushed tmp names x n)
    (hl : ∀ name, names[n]? = some name → tmp'.lookup name = tmp.lookup name) :
    S.Flushed tmp' names x n := by
  obtain ⟨name, kva, hn, hfile, hperm⟩ := h
  exact ⟨name, kva, hn, (hl name hn).trans hfile, hperm⟩

/-- A worker does not notice what happens to files that are not its own. -/
theorem Fact.frame {pc : WorkerPc} (h : Fact S tmp out pc)
    (hl : ∀ name ∈ pc.temps, tmp'.lookup name = tmp.lookup name) (he : S.Extends tmp tmp')
    (hout : ∀ y, S.HasOut out y → S.HasOut out' y) :
    Fact S tmp' out' pc := by
  cases h with
  | idle => exact .idle
  | requesting => exact .requesting
  | waiting => exact .waiting
  | exited => exact .exited
  | mapping reply pairs => exact .mapping reply pairs
  | creating reply pairs count => exact .creating reply pairs count
  | flushing reply pairs count flushed =>
    exact .flushing reply pairs count fun n hn =>
      (flushed n hn).frame fun name hname => hl name (List.mem_of_getElem? hname)
  | @moving replys names i x reply count flushed renamed =>
    refine .moving reply count (fun n hi hn => ?_) fun n hn hi => he x n hn (renamed n hn hi)
    refine (flushed n hi hn).frame fun name hname => hl name ?_
    have hdrop : (names.drop i)[n - i]? = some name := by
      rwa [List.getElem?_drop, Nat.add_sub_cancel' hi]
    exact List.mem_of_getElem? hdrop
  | reading reply files read => exact .reading (reply.mono he) files read
  | printing reply lines file =>
    exact .printing (reply.mono he) lines ((hl _ (List.mem_singleton_self _)).trans file)
  | mapped reply files => exact .mapped reply (files.mono he)
  | reduced reply file => exact .reduced (reply.mono he) (hout _ file)

/-! ### The coordinator -/

/-- A reply is about a task of the job, or there is none for the worker. -/
inductive Setting.IsReply (S : Setting) (tmp : Dir) (replys : RequestTaskReplys) : Prop
  | map {x : ℕ} (reply : S.IsMap replys x) : IsReply S tmp replys
  | reduce {y : ℕ} (reply : S.IsReduce tmp replys y) : IsReply S tmp replys
  | none (type : replys.taskType = .WaitTask ∨ replys.taskType = .ExitTask) : IsReply S tmp replys

theorem Setting.IsReply.mono {replys : RequestTaskReplys} (h : S.IsReply tmp replys)
    (he : S.Extends tmp tmp') : S.IsReply tmp' replys := by
  cases h with
  | map reply => exact .map reply
  | reduce reply => exact .reduce (reply.mono he)
  | none type => exact .none type

/-- What the coordinator has been told of the files, and what it tells. -/
structure Served (S : Setting) (tmp out : Dir) (s : Server) : Prop where
  replies : ∀ (k : ℕ) (call : Call) (replys : RequestTaskReplys), s.calls[k]? = some call →
    call.pc.replys = some replys → S.IsReply tmp replys
  mapped : ∀ x t, s.task (.map x) = some t → t.taskStat = .Finished → S.HasMap tmp x
  reduced : ∀ y t, s.task (.reduce y) = some t → t.taskStat = .Finished → S.HasOut out y
  inputs : ∀ y t, s.task (.reduce y) = some t → t.inputFiles.Perm (S.names y)

namespace Served

variable {s s' : Server} {e : Event} {j : Job}

theorem mono (h : Served S tmp out s) (he : S.Extends tmp tmp')
    (hout : ∀ y, S.HasOut out y → S.HasOut out' y) :
    Served S tmp' out' s where
  replies := fun k call replys hk hr => (h.replies k call replys hk hr).mono he
  mapped := fun x t ht hfin => (h.mapped x t ht hfin).mono he
  reduced := fun y t ht hfin => hout _ (h.reduced y t ht hfin)
  inputs := h.inputs

theorem maps (h : Served S tmp out s) (hc : Counted S.files S.nReduce s.c)
    (hall : ∀ t ∈ s.c.mapTask, t.taskStat = .Finished) : ∀ x < S.files.length, S.HasMap tmp x := by
  intro x hx
  have hlt : x < s.c.mapTask.length := hc.length_mapTask ▸ hx
  exact h.mapped x _ (List.getElem?_eq_getElem hlt) (hall _ (List.getElem_mem hlt))

/-- A reply is filled in while its task is unfinished: in the map phase if it is a map task, so that
    `c.nReduce` is still the number of reduce tasks. -/
theorem fill (h : Served S tmp out j.server) (hj : j.Control S) {k : ℕ} {r : TaskRef} {t : Task}
    (hp : j.server.InProgress k r) (ht : j.server.task r = some t) :
    S.IsReply tmp ⟨t.taskType, t.taskID, t.inputFiles, j.server.c.nReduce⟩ := by
  cases r with
  | map x =>
    have hphase := Server.Busy.mapPhase hj.busy hj.counted hp ht
    obtain ⟨hx, htype, hfiles, hid⟩ := hj.counted.map_label ht
    exact .map ⟨htype, hx, hid, hfiles, (hj.counted.before hphase).1⟩
  | reduce y =>
    obtain ⟨hphase, htype⟩ := hj.counted.reduce_after ht
    obtain ⟨hy, hid⟩ := hj.counted.reduce_label ht
    exact .reduce ⟨htype, hy, hid, h.inputs y t ht, h.maps hj.counted (hj.counted.after hphase).1⟩
  | wait i => exact .none (.inl (hj.waits t (List.mem_of_getElem? ht)))

/-- A step of the coordinator. A report comes when the files of its task exist. -/
theorem moves (h : Served S tmp out j.server) (hj : j.Control S) (hm : j.server.Moves e s)
    (hglob : ∀ glob, e = .checkPhase glob → j.server.c.phase = .MapPhase →
      j.server.c.nMap = j.server.c.mapTask.length → ∀ y < S.nReduce, (glob y).Perm (S.names y))
    (hmap : ∀ args x, e = .report args → args.task = some (.map x) → S.HasMap tmp x)
    (hreduce : ∀ args y, e = .report args → args.task = some (.reduce y) → S.HasOut out y) :
    Served S tmp out s where
  replies := fun k call replys hk hr => by
    rcases hm.replys hk hr with ⟨call, hk, hr⟩ | hexit | ⟨r, t, hp, ht, rfl⟩
    · exact h.replies k call replys hk hr
    · exact .none (.inr hexit)
    · exact h.fill hj hp ht
  mapped := fun x t ht hfin => by
    have hlt : x < j.server.c.mapTask.length := by
      rw [hj.counted.length_mapTask, ← (hj.counted.effect hm.effect).length_mapTask]
      exact (List.getElem?_eq_some_iff.mp ht).1
    have ht₀ : j.server.task (.map x) = some _ := List.getElem?_eq_getElem hlt
    by_contra hno
    refine hm.unfinished ht₀ (fun hfin₀ => hno (h.mapped x _ ht₀ hfin₀)) ?_ ht hfin
    exact fun args he htask => hno (hmap args x he htask)
  reduced := fun y t ht hfin => by
    cases ht₀ : j.server.task (.reduce y) with
    | none =>
      obtain ⟨glob, -, -, rfl, -⟩ := hm.reduce_new hj.counted ht₀ ht
      cases hfin
    | some t₀ =>
      by_contra hno
      refine hm.unfinished ht₀ (fun hfin₀ => hno (h.reduced y _ ht₀ hfin₀)) ?_ ht hfin
      exact fun args he htask => hno (hreduce args y he htask)
  inputs := fun y t ht => by
    cases ht₀ : j.server.task (.reduce y) with
    | none =>
      obtain ⟨glob, he, hy, rfl, hphase, hall⟩ := hm.reduce_new hj.counted ht₀ ht
      exact hglob glob he hphase hall y hy
    | some t₀ =>
      obtain ⟨t', ht', hgrows⟩ := hm.keeps _ t₀ ht₀
      cases ht.symm.trans ht'
      have hfiles : t.inputFiles = t₀.inputFiles := congrArg (·.2.1) hgrows.label
      exact hfiles ▸ h.inputs y t₀ ht₀

end Served

/-! ### The workers -/

/-- The temporary files of a worker are there, and no `Glob` finds them. -/
structure Setting.Temps (S : Setting) (tmp : Dir) (names : List String) : Prop where
  nodup : names.Nodup
  spare : ∀ name ∈ names, S.Spare name
  present : ∀ name ∈ names, (tmp.lookup name).isSome = true

structure Worked (S : Setting) (tmp out : Dir) (workers : ℕ → WorkerPc) : Prop where
  fact : ∀ w, Fact S tmp out (workers w)
  temps : ∀ w, S.Temps tmp (workers w).temps
  apart : ∀ w w', w ≠ w' → ∀ name ∈ (workers w).temps, name ∉ (workers w').temps

namespace Worked

variable {workers : ℕ → WorkerPc} {w : ℕ} {pc : WorkerPc}

/-- A step of one worker that leaves the temporary files of the others alone. -/
theorem update (h : Worked S tmp out workers) (he : S.Extends tmp tmp')
    (hout : ∀ y, S.HasOut out y → S.HasOut out' y)
    (hl : ∀ w' ≠ w, ∀ name ∈ (workers w').temps, tmp'.lookup name = tmp.lookup name)
    (hfact : Fact S tmp' out' pc) (htemps : S.Temps tmp' pc.temps)
    (hapart : ∀ w' ≠ w, ∀ name ∈ pc.temps, name ∉ (workers w').temps) :
    Worked S tmp' out' (Function.update workers w pc) := by
  refine ⟨fun w' => ?_, fun w' => ?_, fun w₁ w₂ hne name hname => ?_⟩
  · rcases eq_or_ne w' w with rfl | hw
    · rwa [Function.update_self]
    · rw [Function.update_of_ne hw]
      exact (h.fact w').frame (hl w' hw) he hout
  · rcases eq_or_ne w' w with rfl | hw
    · rwa [Function.update_self]
    · rw [Function.update_of_ne hw]
      obtain ⟨hnodup, hspare, hpresent⟩ := h.temps w'
      refine ⟨hnodup, hspare, fun name hname => ?_⟩
      rw [hl w' hw name hname]
      exact hpresent name hname
  · rcases eq_or_ne w₁ w with rfl | hw₁
    · rw [Function.update_self] at hname
      rw [Function.update_of_ne hne.symm]
      exact hapart w₂ hne.symm name hname
    · rw [Function.update_of_ne hw₁] at hname
      rcases eq_or_ne w₂ w with rfl | hw₂
      · rw [Function.update_self]
        exact fun hname' => hapart w₁ hw₁ name hname' hname
      · rw [Function.update_of_ne hw₂]
        exact h.apart w₁ w₂ hne name hname

/-- A step that touches no file. -/
theorem goto (h : Worked S tmp out workers) (hfact : Fact S tmp out pc)
    (hsub : pc.temps.Sublist (workers w).temps) :
    Worked S tmp out (Function.update workers w pc) := by
  obtain ⟨hnodup, hspare, hpresent⟩ := h.temps w
  refine h.update (fun _ _ _ => id) (fun _ => id) (fun _ _ _ _ => rfl) hfact
    ⟨hnodup.sublist hsub, fun name hname => hspare name (hsub.subset hname),
      fun name hname => hpresent name (hsub.subset hname)⟩ ?_
  exact fun w' hw name hname => h.apart w w' hw.symm name (hsub.subset hname)

/-- A step that writes a temporary file of the worker, which may be new. -/
theorem write (h : Worked S tmp out workers) (hname : S.Spare name)
    (hfree : ∀ w' ≠ w, name ∉ (workers w').temps)
    (hfact : Fact S (tmp.insert name file) out pc) (hnodup : pc.temps.Nodup)
    (hsub : ∀ name' ∈ pc.temps, name' = name ∨ name' ∈ (workers w).temps) :
    Worked S (tmp.insert name file) out (Function.update workers w pc) := by
  refine h.update S.extends_insert (fun _ => id) (fun w' hw name' hname' => ?_) hfact
    ⟨hnodup, fun name' hname' => ?_, fun name' hname' => ?_⟩ fun w' hw name' hname' => ?_
  · refine AList.lookup_insert_ne ?_
    rintro rfl
    exact hfree w' hw hname'
  · rcases hsub name' hname' with rfl | hmem
    · exact hname
    · exact (h.temps w).spare name' hmem
  · rcases hsub name' hname' with rfl | hmem
    · rw [AList.lookup_insert]
      rfl
    · exact isSome_lookup_insert ((h.temps w).present name' hmem)
  · rcases hsub name' hname' with rfl | hmem
    · exact hfree w' hw
    · exact h.apart w w' hw.symm name' hmem

/-- A name that does not exist belongs to nobody. -/
theorem free_of_fresh (h : Worked S tmp out workers) (hfresh : tmp.lookup name = none) (w : ℕ) :
    name ∉ (workers w).temps := by
  intro hmem
  have hsome := (h.temps w).present name hmem
  rw [hfresh] at hsome
  cases hsome

end Worked

/-! ### The steps of a worker -/

section Steps

variable {replys : RequestTaskReplys} {rest names : List String} {kva kva' : List KeyValue}
  {f : String} {i : ℕ}

theorem Fact.dispatch (h : S.IsReply tmp replys) : Fact S tmp out (Job.dispatch replys) := by
  unfold Job.dispatch
  cases h with
  | map reply =>
    rw [reply.type]
    refine .mapping reply ?_
    simp [reply.files, Setting.mapOut]
  | @reduce y reply =>
    rw [reply.type]
    have hread : List.Forall₂ (S.Version y) [] [] := .nil
    exact .reading reply (List.nil_append _).symm hread
  | none type =>
    rcases type with type | type
    · rw [type]
      exact .waiting
    · rw [type]
      exact .exited

theorem temps_dispatch (replys : RequestTaskReplys) : (Job.dispatch replys).temps = [] := by
  unfold Job.dispatch
  split <;> rfl

theorem Fact.mapFile (h : Fact S tmp out (.mapping replys (f :: rest) kva))
    (hmap : kva'.Perm (S.mapFile f)) : Fact S tmp out (.mapping replys rest (kva ++ kva')) := by
  cases h with
  | mapping reply pairs =>
    refine .mapping reply (List.Perm.trans ?_ pairs)
    rw [List.append_assoc, List.flatMap_cons]
    exact (hmap.append_right _).append_left _

theorem Fact.sort (h : Fact S tmp out (.mapping replys [] kva)) (hperm : kva'.Perm kva) :
    Fact S tmp out (.creating replys kva' []) := by
  cases h with
  | @mapping _ _ _ x reply pairs =>
    have hkva : kva.Perm (S.mapOut x) := by simpa using pairs
    exact .creating reply (hperm.trans hkva) (Nat.zero_le _)

theorem Fact.createTmp (h : Fact S tmp out (.creating replys kva names))
    (hlt : names.length < replys.reduceNum) :
    Fact S tmp' out (.creating replys kva (names ++ [name])) := by
  cases h with
  | creating reply pairs count =>
    refine .creating reply pairs ?_
    rw [reply.num] at hlt
    simpa using hlt

theorem Fact.encode (h : Fact S tmp out (.creating replys kva names))
    (hle : replys.reduceNum ≤ names.length) : Fact S tmp out (.flushing replys kva names 0) := by
  cases h with
  | creating reply pairs count =>
    refine .flushing reply pairs (le_antisymm count (reply.num ▸ hle)) fun n hn => ?_
    exact absurd hn n.not_lt_zero

theorem Fact.flush (h : Fact S tmp out (.flushing replys kva names i)) (hnodup : names.Nodup)
    (hname : names[i]? = some name) :
    Fact S (tmp.insert name (.pairs ((writeIntoTmpFiles replys.reduceNum kva).getD i []))) out
      (.flushing replys kva names (i + 1)) := by
  cases h with
  | flushing reply pairs count flushed =>
    have hi : i < names.length := (List.getElem?_eq_some_iff.mp hname).1
    refine .flushing reply pairs count fun n hn => ?_
    rcases Nat.lt_succ_iff_lt_or_eq.mp hn with hlt | rfl
    · refine (flushed n hlt).frame fun name' hname' => AList.lookup_insert_ne ?_
      rintro rfl
      exact List.nodup_iff_getElem?_ne_getElem?.mp hnodup n i hlt hi (hname'.trans hname.symm)
    · refine ⟨name, _, hname, AList.lookup_insert .., ?_⟩
      rw [reply.num, List.getD_eq_getElem?_getD, getElem?_writeIntoTmpFiles (count ▸ hi)]
      exact bucket_perm pairs

theorem Fact.flushed (h : Fact S tmp out (.flushing replys kva names i))
    (hname : names[i]? = none) : Fact S tmp out (.renaming replys names 0) := by
  cases h with
  | flushing reply pairs count flushed =>
    have hle : S.nReduce ≤ i := count ▸ List.getElem?_eq_none_iff.mp hname
    exact .moving reply count (fun n _ hn => flushed n (hn.trans_le hle))
      fun n _ hn => absurd hn n.not_lt_zero

theorem Fact.renamed (h : Fact S tmp out (.renaming replys names i)) (hname : names[i]? = none) :
    Fact S tmp out (.reporting replys) := by
  cases h with
  | moving reply count flushed renamed =>
    have hle : S.nReduce ≤ i := count ▸ List.getElem?_eq_none_iff.mp hname
    exact .mapped reply fun y hy => renamed y hy (hy.trans_le hle)

theorem Fact.readFile {kva : AList fun _ : String => List String} (htmp : S.TmpOk tmp)
    (h : Fact S tmp out (.reading replys (f :: rest) kva)) : Fact S tmp out
      (.reading replys rest (collect KeyValue.key KeyValue.value kva (tmp.decode f))) := by
  cases h with
  | @reading _ fs _ contents y reply files read =>
    have hf : f ∈ S.names y := reply.files.subset (by simp [files])
    have hread := List.rel_append read (.cons (htmp.decode reply.maps reply.lt hf) .nil)
    have hcollect : collect KeyValue.key KeyValue.value (decodeAll contents) (tmp.decode f)
        = decodeAll (contents ++ [tmp.decode f]) := by simp [decodeAll]
    rw [hcollect]
    exact .reading reply (by simp [files]) hread

theorem Fact.createOut {kva : AList fun _ : String => List String}
    (h : Fact S tmp out (.reading replys [] kva)) :
    Fact S (tmp.insert name (.lines [])) out (.printing replys kva (sortedKeys kva) [] name) := by
  cases h with
  | @reading _ fs _ contents y reply files read =>
    have hfs : fs.Perm (S.names y) := by simpa [files] using reply.files
    exact .printing (reply.mono S.extends_insert) ⟨fs, contents, hfs, read, rfl⟩
      (AList.lookup_insert ..)

theorem Fact.print {kva : AList fun _ : String => List String} {key : String} {keys : List String}
    {printed : List Line} (h : Fact S tmp out (.printing replys kva (key :: keys) printed name)) :
    Fact S (tmp.insert name (.lines (printed ++ [reduceKey S.reducef kva key]))) out
      (.printing replys kva keys (printed ++ [reduceKey S.reducef kva key]) name) := by
  cases h with
  | printing reply lines file =>
    exact .printing (reply.mono S.extends_insert) (by simpa using lines) (AList.lookup_insert ..)

end Steps

/-! ### Renaming -/

/-- A complete temporary file becomes an intermediate file, which may have been there. -/
theorem Worked.renameTmp {workers : ℕ → WorkerPc} {w i : ℕ} {replys : RequestTaskReplys}
    {names : List String} (h : Worked S tmp out workers) (htmp : S.TmpOk tmp)
    (hpc : workers w = .renaming replys names i) (hname : names[i]? = some name) :
    ∃ file, tmp.lookup name = some file ∧
      S.TmpOk ((tmp.erase name).insert (mrName replys.taskID i) file) ∧
      S.Extends tmp ((tmp.erase name).insert (mrName replys.taskID i) file) ∧
      Worked S ((tmp.erase name).insert (mrName replys.taskID i) file) out
        (Function.update workers w (.renaming replys names (i + 1))) := by
  have hfact := h.fact w
  obtain ⟨hnodup, hspare, hpresent⟩ := h.temps w
  rw [hpc] at hfact hnodup hspare hpresent
  obtain ⟨hi, rfl⟩ := List.getElem?_eq_some_iff.mp hname
  have hdrop : names.drop i = names[i] :: names.drop (i + 1) := List.drop_eq_getElem_cons hi
  have hmine : names[i] ∈ names.drop i := hdrop ▸ List.mem_cons_self
  cases hfact with
  | @moving _ _ _ x reply count flushed renamed =>
    obtain ⟨name, kva, hname', hfile, hperm⟩ := flushed i le_rfl (count ▸ hi)
    cases hname.symm.trans hname'
    have hnew : S.TmpOk ((tmp.erase names[i]).insert (mrName replys.taskID i) (.pairs kva)) := by
      rw [reply.id]
      exact htmp.erase.insert reply.lt (count ▸ hi) hperm
    have hext : S.Extends tmp ((tmp.erase names[i]).insert (mrName replys.taskID i) (.pairs kva)) :=
      fun x y hy hl => isSome_lookup_insert (S.extends_erase (hspare _ hmine) x y hy hl)
    -- a temporary file other than the renamed one
    have hother : ∀ name, S.Spare name → name ≠ names[i] →
        ((tmp.erase names[i]).insert (mrName replys.taskID i) (.pairs kva)).lookup name
          = tmp.lookup name := by
      intro name hsp hne
      rw [reply.id, AList.lookup_insert_ne (hsp.ne_mrName (count ▸ hi)).symm,
        AList.lookup_erase_ne hne]
    have hlater : ∀ name ∈ names.drop (i + 1), name ∈ names.drop i ∧ name ≠ names[i] := by
      intro name hmem
      rw [hdrop]
      refine ⟨List.mem_cons_of_mem _ hmem, ?_⟩
      rintro rfl
      rw [show (WorkerPc.renaming replys names i).temps = names.drop i from rfl, hdrop] at hnodup
      exact (List.nodup_cons.mp hnodup).1 hmem
    refine ⟨.pairs kva, hfile, hnew, hext, h.update hext (fun _ => id) ?_ ?_ ?_ ?_⟩
    · intro w' hw name hmem
      refine hother name ((h.temps w').spare name hmem) ?_
      rintro rfl
      exact h.apart w w' hw.symm _ (by rw [hpc]; exact hmine) hmem
    · refine .moving reply count (fun n hn hlt => ?_) fun n hlt hn => ?_
      · refine (flushed n (by omega) hlt).frame fun name hn' => ?_
        have hmem : name ∈ names.drop (i + 1) := by
          refine List.mem_of_getElem? (i := n - (i + 1)) ?_
          rwa [List.getElem?_drop, Nat.add_sub_cancel' hn]
        obtain ⟨hmem, hne⟩ := hlater name hmem
        exact hother name (hspare name hmem) hne
      · rcases Nat.lt_succ_iff_lt_or_eq.mp hn with hn | rfl
        · exact hext x n hlt (renamed n hlt hn)
        · rw [reply.id, AList.lookup_insert]
          rfl
    · refine ⟨?_, fun name hmem => hspare name (hlater name hmem).1, fun name hmem => ?_⟩
      · exact hnodup.sublist (List.drop_sublist_drop_left names (Nat.le_succ i))
      · obtain ⟨hmem, hne⟩ := hlater name hmem
        rw [hother name (hspare name hmem) hne]
        exact hpresent name hmem
    · intro w' hw name hmem
      exact h.apart w w' hw.symm name (by rw [hpc]; exact (hlater name hmem).1)

/-- A complete temporary file becomes an output file. -/
theorem Worked.renameOut {workers : ℕ → WorkerPc} {w : ℕ} {replys : RequestTaskReplys}
    {kva : AList fun _ : String => List String} {printed : List Line}
    (h : Worked S tmp out workers) (hpc : workers w = .printing replys kva [] printed name) :
    ∃ file, tmp.lookup name = some file ∧ S.Spare name ∧
      (∀ y, S.HasOut out y → S.HasOut (out.insert (outName replys.taskID) file) y) ∧
      Worked S (tmp.erase name) (out.insert (outName replys.taskID) file)
        (Function.update workers w (.reporting replys)) := by
  have hfact := h.fact w
  have hmine : name ∈ (workers w).temps := by
    rw [hpc]
    exact List.mem_singleton_self _
  have hspare := (h.temps w).spare name hmine
  rw [hpc] at hfact
  cases hfact with
  | @printing _ _ _ _ _ y reply lines file =>
    have hlines : S.IsOutput y printed := by simpa using lines
    have hout : ∀ y', S.HasOut out y' →
        S.HasOut (out.insert (outName replys.taskID) (.lines printed)) y' := by
      rw [reply.id]
      exact fun y' => .insert hlines
    refine ⟨.lines printed, file, hspare, hout, h.update (S.extends_erase hspare) hout
      (fun w' hw name' hmem => ?_) ?_ ⟨.nil, ?_, ?_⟩ ?_⟩
    · refine AList.lookup_erase_ne ?_
      rintro rfl
      exact h.apart w w' hw.symm _ hmine hmem
    · refine .reduced (reply.mono (S.extends_erase hspare)) ?_
      rw [reply.id]
      exact S.hasOut_insert hlines
    · rintro _ ⟨⟩
    · rintro _ ⟨⟩
    · rintro _ _ _ ⟨⟩

/-! ### All steps -/

theorem Setting.IsMap.task {replys : RequestTaskReplys} (h : S.IsMap replys x) (w : ℤ) :
    ReportTaskArgs.task ⟨replys.taskType, replys.taskID, w⟩ = some (.map x) := by
  simp [ReportTaskArgs.task, h.type, h.id]

theorem Setting.IsReduce.task {replys : RequestTaskReplys} (h : S.IsReduce tmp replys y) (w : ℤ) :
    ReportTaskArgs.task ⟨replys.taskType, replys.taskID, w⟩ = some (.reduce y) := by
  simp [ReportTaskArgs.task, h.type, h.id]

namespace Job

variable {j j' : Job} {e : JobEvent}

structure Kept (S : Setting) (j : Job) : Prop where
  control : j.Control S
  tmp : S.TmpOk j.tmp
  found : ∀ (y : ℕ) (files : List String), j.found[y]? = some files → files.Perm (S.names y)
  served : Served S j.tmp j.out j.server
  worked : Worked S j.tmp j.out j.workers

theorem kept_init (S : Setting) (out : Dir) : (init S out).Kept S where
  control := control_init S out
  tmp := by rintro _ _ ⟨⟩
  found := by rintro _ _ ⟨⟩
  served := by
    refine ⟨by rintro _ _ _ ⟨⟩, fun x t ht hfin => ?_, by rintro _ _ ⟨⟩, by rintro _ _ ⟨⟩⟩
    obtain ⟨i, -, rfl⟩ := List.mem_map.mp (List.mem_of_getElem? ht)
    cases hfin
  worked := ⟨fun _ => .idle, fun _ => ⟨.nil, by rintro _ ⟨⟩, by rintro _ ⟨⟩⟩, by rintro _ _ _ _ ⟨⟩⟩

theorem renameTmp_of_lookup {newName : String} (h : j.tmp.lookup name = some file) :
    j.renameTmp name newName = { j with tmp := (j.tmp.erase name).insert newName file } := by
  simp [renameTmp, Dir.take, h]

theorem renameOut_of_lookup {newName : String} (h : j.tmp.lookup name = some file) :
    j.renameOut name newName =
      { j with tmp := j.tmp.erase name, out := j.out.insert newName file } := by
  simp [renameOut, Dir.take, h]

/-- The coordinator moves on its own. -/
theorem Kept.serve (h : j.Kept S) {e : Event} {s : Server} (hm : j.server.Moves e s)
    (hcontrol : ({ j with server := s } : Job).Control S)
    (hglob : ∀ glob, e = .checkPhase glob → j.server.c.phase = .MapPhase →
      j.server.c.nMap = j.server.c.mapTask.length → ∀ y < S.nReduce, (glob y).Perm (S.names y))
    (hreport : ∀ args, e ≠ .report args) : ({ j with server := s } : Job).Kept S where
  control := hcontrol
  tmp := h.tmp
  found := h.found
  served := h.served.moves h.control hm hglob (fun args _ he => absurd he (hreport args))
    fun args _ he => absurd he (hreport args)
  worked := h.worked

/-- `Glob` is called when all map tasks are finished. -/
theorem Kept.glob (h : j.Kept S) (hscans : j.Scans) :
    ({ j with found := j.found ++ [j.tmp.glob j.found.length] } : Job).Kept S where
  control := ⟨h.control.counted, h.control.leased, h.control.waits, h.control.callers,
    h.control.busy⟩
  tmp := h.tmp
  found := fun y files hfiles => by
    obtain ⟨hphase, hall, hlt⟩ := hscans
    rw [(h.control.counted.before hphase).1] at hlt
    have hmaps := h.served.maps h.control.counted
      (finished_eq_length.mp (h.control.counted.nMap.symm.trans hall))
    rcases lt_trichotomy y j.found.length with hy | rfl | hy
    · exact h.found y files (List.getElem?_append_left hy ▸ hfiles)
    · rw [List.getElem?_concat_length] at hfiles
      cases hfiles
      exact h.tmp.glob hmaps hlt
    · rw [List.getElem?_eq_none (by simp; omega)] at hfiles
      cases hfiles
  served := h.served
  worked := h.worked

/-- All calls of `Glob` have returned when the reduce tasks are there. -/
theorem Kept.scanned (h : j.Kept S) (hscanned : ¬ j.Scans) (hphase : j.server.c.phase = .MapPhase)
    (hall : j.server.c.nMap = j.server.c.mapTask.length) {y : ℕ} (hy : y < S.nReduce) :
    (j.found.getD y []).Perm (S.names y) := by
  have hlt : y < j.found.length := by
    by_contra hge
    refine hscanned ⟨hphase, hall, ?_⟩
    rw [(h.control.counted.before hphase).1]
    omega
  refine h.found y _ ?_
  rw [List.getD_eq_getElem?_getD, List.getElem?_eq_getElem hlt]
  rfl

/-- A worker reports a task whose files are in place. -/
theorem Kept.report (h : j.Kept S) {w : ℕ} {replys : RequestTaskReplys} {s : Server}
    (hpc : j.workers w = .reporting replys)
    (hm : j.server.Moves (.report ⟨replys.taskType, replys.taskID, w⟩) s)
    (hcontrol : ({ j.goto w .idle with server := s } : Job).Control S) :
    ({ j.goto w .idle with server := s } : Job).Kept S where
  control := hcontrol
  tmp := h.tmp
  found := h.found
  served := by
    have hfact := h.worked.fact w
    rw [hpc] at hfact
    cases hfact with
    | mapped reply files =>
      refine h.served.moves h.control hm (by rintro _ ⟨⟩) ?_ ?_
      · rintro _ x ⟨⟩ htask
        cases (reply.task w).symm.trans htask
        exact files
      · rintro _ y ⟨⟩ htask
        cases (reply.task w).symm.trans htask
    | reduced reply file =>
      refine h.served.moves h.control hm (by rintro _ ⟨⟩) ?_ ?_
      · rintro _ x ⟨⟩ htask
        cases (reply.task w).symm.trans htask
      · rintro _ y ⟨⟩ htask
        cases (reply.task w).symm.trans htask
        exact file
  worked := h.worked.goto .idle (List.nil_sublist _)

/-- A step of a worker that leaves the files as they are. -/
theorem Kept.goto (h : j.Kept S) {w : ℕ} {pc : WorkerPc} (hcontrol : (j.goto w pc).Control S)
    (hfact : Fact S j.tmp j.out pc) (hsub : pc.temps.Sublist (j.workers w).temps) :
    (j.goto w pc).Kept S :=
  ⟨hcontrol, h.tmp, h.found, h.served, h.worked.goto hfact hsub⟩

/-- A step of a worker that writes one of its temporary files. -/
theorem Kept.write (h : j.Kept S) {w : ℕ} {pc : WorkerPc} {name : String} {file : File}
    (hcontrol : ((j.write name file).goto w pc).Control S) (hspare : S.Spare name)
    (hfree : ∀ w' ≠ w, name ∉ (j.workers w').temps)
    (hfact : Fact S (j.tmp.insert name file) j.out pc) (hnodup : pc.temps.Nodup)
    (hsub : ∀ name' ∈ pc.temps, name' = name ∨ name' ∈ (j.workers w).temps) :
    ((j.write name file).goto w pc).Kept S :=
  ⟨hcontrol, h.tmp.write hspare, h.found, h.served.mono S.extends_insert fun _ => id,
    h.worked.write hspare hfree hfact hnodup hsub⟩

/-- A worker that writes to a temporary file it has made. -/
theorem Kept.rewrite (h : j.Kept S) {w : ℕ} {pc : WorkerPc} {name : String} {file : File}
    (hcontrol : ((j.write name file).goto w pc).Control S) (hmem : name ∈ (j.workers w).temps)
    (hfact : Fact S (j.tmp.insert name file) j.out pc) (hsame : (j.workers w).temps = pc.temps) :
    ((j.write name file).goto w pc).Kept S :=
  h.write hcontrol ((h.worked.temps w).spare name hmem)
    (fun w' hw => h.worked.apart w w' hw.symm name hmem) hfact
    (hsame ▸ (h.worked.temps w).nodup) fun _ hname' => .inr (hsame ▸ hname')

theorem Moves.kept (hm : j.Moves S e j') (hok : j.Assumed S e) (h : j.Kept S) : j'.Kept S := by
  have hcontrol := hm.control h.control
  have hfact : ∀ {w : ℕ} {pc : WorkerPc}, j.workers w = pc → Fact S j.tmp j.out pc :=
    fun hpc => hpc ▸ h.worked.fact _
  have htemps : ∀ {w : ℕ} {pc : WorkerPc}, j.workers w = pc → S.Temps j.tmp pc.temps :=
    fun hpc => hpc ▸ h.worked.temps _
  cases hm with
  | run moves => exact h.serve moves hcontrol (by rintro _ ⟨⟩) (by rintro _ ⟨⟩)
  | timeout moves => exact h.serve moves hcontrol (by rintro _ ⟨⟩) (by rintro _ ⟨⟩)
  | glob scans => exact h.glob scans
  | checkPhase scanned moves =>
    refine h.serve moves hcontrol ?_ (by rintro _ ⟨⟩)
    rintro _ ⟨⟩ hphase hall y hy
    exact h.scanned scanned hphase hall hy
  | request pc moves =>
    exact ⟨hcontrol, h.tmp, h.found, h.served.moves h.control moves (by rintro _ ⟨⟩)
      (by rintro _ _ ⟨⟩) (by rintro _ _ ⟨⟩), h.worked.goto .requesting (List.nil_sublist _)⟩
  | receive pc call =>
    refine h.goto hcontrol (.dispatch (h.served.replies _ _ _ call rfl)) ?_
    rw [temps_dispatch]
    exact List.nil_sublist _
  | mapFile pc =>
    simp only [Assumed, pc] at hok
    exact h.goto hcontrol ((hfact pc).mapFile hok) (List.nil_sublist _)
  | sort pc =>
    simp only [Assumed, pc] at hok
    exact h.goto hcontrol ((hfact pc).sort hok.1) (List.nil_sublist _)
  | createTmp pc lt fresh =>
    simp only [Assumed, pc] at hok
    have hfree := h.worked.free_of_fresh fresh
    refine h.write hcontrol hok (fun w' _ => hfree w') ((hfact pc).createTmp lt) ?_ ?_
    · refine List.nodup_append.mpr ⟨(htemps pc).nodup, List.nodup_singleton _, ?_⟩
      rintro a ha b hb rfl
      rw [List.mem_singleton.mp hb] at ha
      exact hfree _ (by rw [pc]; exact ha)
    · intro name' hmem
      rw [pc]
      rcases List.mem_append.mp hmem with hmem | hmem
      · exact .inr hmem
      · exact .inl (List.mem_singleton.mp hmem)
  | encode pc le =>
    exact h.goto hcontrol ((hfact pc).encode le) (by rw [pc]; exact List.Sublist.refl _)
  | @flush w replys kva names i name pc name_i =>
    have hmem : name ∈ (j.workers w).temps := by
      rw [pc]
      exact List.mem_of_getElem? name_i
    exact h.rewrite hcontrol hmem ((hfact pc).flush (htemps pc).nodup name_i) (by rw [pc]; rfl)
  | flushed pc name_i =>
    exact h.goto hcontrol ((hfact pc).flushed name_i) (by rw [pc]; exact List.Sublist.refl _)
  | renameTmp pc name_i =>
    obtain ⟨file, hl, htmp, hext, hworked⟩ := h.worked.renameTmp h.tmp pc name_i
    rw [renameTmp_of_lookup hl] at hcontrol ⊢
    exact ⟨hcontrol, htmp, h.found, h.served.mono hext fun _ => id, hworked⟩
  | renamed pc name_i =>
    exact h.goto hcontrol ((hfact pc).renamed name_i) (List.nil_sublist _)
  | readFile pc => exact h.goto hcontrol ((hfact pc).readFile h.tmp) (List.nil_sublist _)
  | createOut pc fresh =>
    simp only [Assumed, pc] at hok
    have hfree := h.worked.free_of_fresh fresh
    exact h.write hcontrol hok (fun w' _ => hfree w') (hfact pc).createOut (List.nodup_singleton _)
      fun name' hmem => .inl (List.mem_singleton.mp hmem)
  | @print w replys kva key keys printed name pc =>
    have hmem : name ∈ (j.workers w).temps := by
      rw [pc]
      exact List.mem_singleton_self _
    exact h.rewrite hcontrol hmem (hfact pc).print (by rw [pc]; rfl)
  | renameOut pc =>
    obtain ⟨file, hl, hspare, hout, hworked⟩ := h.worked.renameOut pc
    rw [renameOut_of_lookup hl] at hcontrol ⊢
    exact ⟨hcontrol, h.tmp.erase, h.found, h.served.mono (S.extends_erase hspare) hout, hworked⟩
  | report pc moves => exact h.report pc moves hcontrol
  | wake pc => exact h.goto hcontrol .idle (List.nil_sublist _)

theorem kept_run {out : Dir} (h : Run (step S) (Assumed S) (init S out) j) : j.Kept S :=
  h.invariant (kept_init S out) fun _ _ _ hk hok hstep => (step_moves hstep).kept hok hk

theorem Kept.output (h : j.Kept S) (hdone : j.server.c.done = true) {y : ℕ} (hy : y < S.nReduce) :
    S.HasOut j.out y := by
  have hp : j.server.c.phase = .AllDone := of_decide_eq_true hdone
  have hlength := h.control.counted.length_reduceTask (by rw [hp]; decide)
  have ht : j.server.task (.reduce y) = some _ := List.getElem?_eq_getElem (hlength ▸ hy)
  have hfin := h.control.counted.done hp _ (List.mem_of_getElem? ht)
  exact h.served.reduced y _ ht hfin

/-- In every run of a job, whatever its workers and timers do: after the map phase every
    intermediate file is there with the pairs of its map task and bucket, in some order, and each
    reduce task is given the intermediate files of its bucket; when `Done` returns true every output
    file is there, the output of a `doReduce` over all of these files. -/
theorem complete_outputs {out : Dir} (h : Run (step S) (Assumed S) (init S out) j) :
    (j.server.c.phase ≠ .MapPhase → ∀ x < S.files.length, ∀ y < S.nReduce, ∃ kva,
      j.tmp.lookup (mrName x y) = some (.pairs kva) ∧
        kva.Perm (bucket S.nReduce y (S.mapOut x))) ∧
    (j.server.c.phase ≠ .MapPhase → ∀ y < S.nReduce, ∃ task,
      j.server.c.reduceTask[y]? = some task ∧ task.inputFiles.Perm (S.names y)) ∧
    (j.server.c.done = true → ∀ y < S.nReduce, ∃ ls,
      j.out.lookup (outName y) = some (.lines ls) ∧ S.IsOutput y ls) := by
  have hk := kept_run h
  refine ⟨fun hp x hx y hy => ?_, fun hp y hy => ?_, fun hdone y hy => hk.output hdone hy⟩
  · have hmaps := hk.served.maps hk.control.counted (hk.control.counted.after hp).1
    obtain ⟨file, hl⟩ := Option.isSome_iff_exists.mp (hmaps x hx y hy)
    obtain ⟨kva, rfl, hperm⟩ := hk.tmp.pairs hy hl
    exact ⟨kva, hl, hperm⟩
  · have ht : j.server.task (.reduce y) = some _ :=
      List.getElem?_eq_getElem (hk.control.counted.length_reduceTask hp ▸ hy)
    exact ⟨_, ht, hk.served.inputs y _ ht⟩

instance decidableAssumed (S : Setting) (j : Job) (e : JobEvent) : Decidable (j.Assumed S e) := by
  unfold Assumed
  split
  · split <;> infer_instance
  · split <;> infer_instance
  · split <;> infer_instance
  · infer_instance

/-- The letters of two files are counted, with two reduce tasks: `a` and `c` go to the first one. -/
def letters : Setting where
  mapf := fun _ contents => contents.toList.map fun c => ⟨String.singleton c, "1"⟩
  reducef := countValues
  contents := fun f => if f = "pg-x.txt" then "ba" else "ac"
  files := ["pg-x.txt", "pg-y.txt"]
  nReduce := 2

/-- Worker `w` makes call `k`, which takes `n` steps in the coordinator. -/
def requests (w k n : ℕ) : List JobEvent :=
  .work w .request :: List.replicate n (.run k) ++ [.work w .receive]

/-- `doMap` until its temporary files are complete, where `mapf` returns `kva`. -/
def mapsTo (w : ℕ) (kva sorted : List KeyValue) (random : String) : List JobEvent :=
  [.work w (.mapFile kva), .work w (.sort sorted), .work w (.createTemp random),
    .work w (.createTemp random), .work w .encode, .work w .flush, .work w .flush, .work w .flush]

/-- The rest of the map task. -/
def renames (w : ℕ) : List JobEvent := List.replicate 3 (.work w .rename) ++ [.work w .report]

/-- Worker 0 stalls before it renames its files; its task is given to worker 1, which completes it
    and the other map task; worker 0 renames its own files over those of worker 1 while worker 1
    reduces. -/
def renamedOver : List JobEvent :=
  requests 0 0 6 ++ mapsTo 0 [⟨"b", "1"⟩, ⟨"a", "1"⟩] [⟨"a", "1"⟩, ⟨"b", "1"⟩] "7" ++
  [.timeout 0] ++
  requests 1 1 6 ++ mapsTo 1 [⟨"a", "1"⟩, ⟨"b", "1"⟩] [⟨"a", "1"⟩, ⟨"b", "1"⟩] "8" ++ renames 1 ++
  requests 1 2 6 ++ mapsTo 1 [⟨"a", "1"⟩, ⟨"c", "1"⟩] [⟨"a", "1"⟩, ⟨"c", "1"⟩] "8" ++ renames 1 ++
  [.glob, .glob, .checkPhase] ++
  requests 1 3 7 ++ [.work 1 .readFile, .work 0 .rename, .work 0 .rename, .work 1 .readFile,
    .work 1 (.createTemp "9"), .work 1 .print, .work 1 .print, .work 1 .rename, .work 1 .report] ++
  requests 1 4 7 ++ [.work 1 .readFile, .work 0 .rename, .work 0 .report, .work 1 .readFile,
    .work 1 (.createTemp "9"), .work 1 .print, .work 1 .rename, .work 1 .report, .checkPhase]

theorem exists_run_renamedOver : ∃ j, Run (step letters) (Assumed letters) (init letters ∅) j ∧
    j.server.c.done = true ∧
    j.out.lookup (outName (0 : ℕ)) = some (.lines [("a", "2"), ("c", "1")]) ∧
    j.out.lookup (outName (1 : ℕ)) = some (.lines [("b", "1")]) :=
  exists_run_of_play (step letters) (Assumed letters) (init letters ∅) renamedOver _
    (by decide +kernel)

theorem complete_outputs_renamed_over : ∃ j, Run (step letters) (Assumed letters)
    (init letters ∅) j ∧ j.server.c.done = true ∧
      letters.IsOutput 0 [("a", "2"), ("c", "1")] ∧ letters.IsOutput 1 [("b", "1")] := by
  obtain ⟨j, hj, hdone, hout₀, hout₁⟩ := exists_run_renamedOver
  have houtput := (complete_outputs hj).2.2 hdone
  obtain ⟨ls₀, hls₀, houtput₀⟩ := houtput 0 (by decide)
  obtain ⟨ls₁, hls₁, houtput₁⟩ := houtput 1 (by decide)
  obtain rfl := File.lines.inj (Option.some.inj (hout₀.symm.trans hls₀))
  obtain rfl := File.lines.inj (Option.some.inj (hout₁.symm.trans hls₁))
  exact ⟨j, hj, hdone, houtput₀, houtput₁⟩

end Job

/-! ### The sequential program -/

/-- The input files with their contents. -/
def Setting.inputs (S : Setting) : List (String × String) := S.files.map fun f => (f, S.contents f)

theorem Setting.intermediate_inputs (S : Setting) : intermediate S.mapf S.inputs =
    (List.range S.files.length).flatMap S.mapOut := by
  have hfiles : (List.range S.files.length).map (S.files.getD · "") = S.files := by
    refine List.ext_getElem (by simp) fun i h₁ h₂ => ?_
    simp [h₂]
  rw [intermediate_eq, Setting.inputs, List.flatMap_map]
  nth_rewrite 1 [← hfiles]
  rw [List.flatMap_map]
  rfl

/-- Whatever order a reduce task reads its files in, it reads the pairs of its bucket. -/
theorem Setting.flatten_versions {fs : List String} {contents : List (List KeyValue)}
    (hfs : fs.Perm (S.names y)) (h : List.Forall₂ (S.Version y) fs contents) :
    contents.flatten.Perm (bucket S.nReduce y (intermediate S.mapf S.inputs)) := by
  obtain ⟨sorted, hsorted, hperm⟩ := List.perm_comp_forall₂ hfs.symm h
  rw [Setting.names, List.forall₂_map_left_iff] at hsorted
  have hbuckets : List.Forall₂ (fun x kva => (bucket S.nReduce y (S.mapOut x)).Perm kva)
      (List.range S.files.length) sorted := by
    refine hsorted.imp fun x kva hversion => ?_
    obtain ⟨x', -, hname, hperm⟩ := hversion
    obtain ⟨rfl, -⟩ := mrName_inj hname
    exact hperm.symm
  have hflat := List.Perm.flatten_congr (List.forall₂_map_left_iff.mpr hbuckets)
  refine hperm.flatten.symm.trans (hflat.symm.trans (List.Perm.of_eq ?_))
  rw [S.intermediate_inputs, bucket, List.filter_flatMap]
  rfl

theorem Setting.IsOutput.summary (hf : OrderFree S.reducef) {ls : List Line} (h : S.IsOutput y ls) :
    Summary KeyValue.key KeyValue.value S.reducef
      (bucket S.nReduce y (intermediate S.mapf S.inputs)) ls := by
  obtain ⟨fs, contents, hfs, hread, rfl⟩ := h
  exact summary_doReduce hf (Setting.flatten_versions hfs hread)

/-- A job that is done has the output of the sequential program, spread over its output files. -/
theorem Job.outputs_sequential {j : Job} {out : Dir} (h : Run (step S) (Assumed S) (init S out) j)
    (hdone : j.server.c.done = true) (hf : OrderFree S.reducef) (hn : 1 ≤ S.nReduce)
    {sort : List KeyValue → List KeyValue} (hsort : SortsByKey sort) : ∃ outs : ℕ → List Line,
      (∀ y < S.nReduce, j.out.lookup (outName y) = some (.lines (outs y))) ∧
      ((List.range S.nReduce).flatMap outs).Perm (mrsequential S.mapf S.reducef sort S.inputs) := by
  have houtput := fun y (hy : y < S.nReduce) => (kept_run h).output hdone hy
  choose! outs houts hsum using houtput
  exact ⟨outs, houts, outputs_perm hf hsort hn fun y hy => (hsum y hy).summary hf⟩

theorem Job.outputs_sequential_two_files : ∃ j, Run (step letters) (Assumed letters)
    (init letters ∅) j ∧ j.server.c.done = true ∧ ∃ outs : ℕ → List Line,
      (∀ y : ℕ, y < 2 → j.out.lookup (outName y) = some (.lines (outs y))) ∧
      ((List.range 2).flatMap outs).Perm (mrsequential letters.mapf countValues
        (List.insertionSort fun a b => a.key ≤ b.key)
        [("pg-x.txt", "ba"), ("pg-y.txt", "ac")]) := by
  obtain ⟨j, hj, hdone, -⟩ := exists_run_renamedOver
  exact ⟨j, hj, hdone,
    outputs_sequential hj hdone orderFree_countValues (by decide) sortsByKey_insertionSort⟩

end DistLabs.MR
