import Mathlib.Data.Int.Notation
import Mathlib.Data.List.Basic
import Mathlib.Logic.Function.Basic

/-! The launch of a task (`task.py`). `Task.run` puts the variables of the configuration into `os.environ`,
    expands the command line and starts the child with both. `os.environ` is that of the worker process,
    which runs one task after another. The run-time arguments are merged into the task's own for the
    command line; the environment is expanded with the run-time arguments alone.

    A format string is cut at its conversions. The configurations have `%(key)s`, `%(key)d` and, by
    mistake, `%(key)` at the end of a string, which is a `ValueError`. -/

namespace Turkey.Launch

/-- What the JSON files of the repository have as the value of a field; JSON knows more, such as `true` and lists. -/
inductive Value where
  | str (s : String)
  | int (n : ℤ)
  deriving DecidableEq

abbrev Dict (α : Type) := String → Option α

inductive Conversion where
  | s
  | d
  | incomplete
  deriving DecidableEq

inductive Piece where
  | text (s : String)
  | placeholder (key : String) (conversion : Conversion)
  deriving DecidableEq

abbrev Template := List Piece

structure Conf where
  exe : Option String
  args : Template
  environment : List (String × Template)
  keys_nodup : (environment.map Prod.fst).Nodup
  maxThreads : Option ℤ
  minThreads : Option ℤ

/-- A `Task` before `__init__` sets up its arguments; `desc` has its id. -/
structure Task where
  desc : Dict Value
  app : String
  mode : String
  threads : ℤ
  conf : Conf
  execDir : String
  inputDir : String
  outputDir : String

/-! ### `%` -/

/-- `str(value)` -/
def Value.toStr : Value → String
  | .str s => s
  | .int n => toString n

/-- One conversion; `none` is an exception. -/
def Conversion.expand : Conversion → Value → Option String
  | .s, v => some v.toStr
  | .d, .int n => some (toString n)
  | .d, .str _ => none
  | .incomplete, _ => none

def Piece.expand (args : Dict Value) : Piece → Option String
  | .text s => some s
  | .placeholder key conversion => (args key).bind conversion.expand

/-- `template % args` -/
def Template.expand (args : Dict Value) : Template → Option String
  | [] => some ""
  | p :: ps => (p.expand args).bind fun s => (Template.expand args ps).map fun rest => s ++ rest

/-! ### `Task.__init__` -/

namespace Task
variable (t : Task)

/-- The executable file. -/
def exec : String :=
  t.execDir ++ "/" ++ match t.conf.exe with
    | some exe => exe
    | none => t.app ++ "_" ++ t.mode

/-- The number of threads, within the bounds of the application. -/
def nthreads : ℤ :=
  let threads := match t.conf.maxThreads with
    | some n => min n t.threads
    | none => t.threads
  match t.conf.minThreads with
    | some n => max n threads
    | none => threads

/-- `self.args` after `__init__`. -/
def args : Dict Value := fun key =>
  if key = "threads" ∨ key = "nthreads" then some (.str (toString t.nthreads))
  else if key = "inputs" then some (.str t.inputDir)
  else if key = "outputs" then some (.str t.outputDir)
  else if key = "start" then some ((t.desc "start").getD (.int 0))
  else t.desc key

/-- `self.args` with the run-time arguments. -/
def merged (args : Dict Value) : Dict Value := fun key => (args key).or (t.args key)

end Task

/-! ### `Task.run` -/

/-- What `str.split` takes for white space. -/
def isSpace (c : Char) : Bool :=
  c.toNat ∈ [9, 10, 11, 12, 13, 28, 29, 30, 31, 32, 133, 160, 5760, 6158, 8232, 8233, 8239, 8287, 12288] ∨
    8192 ≤ c.toNat ∧ c.toNat ≤ 8202

/-- `s.split()` -/
def split (s : String) : List String :=
  ((s.toList.splitOnP isSpace).filter (· ≠ [])).map String.ofList

/-- The command line, from the merged arguments; `none` is an exception. -/
def Task.commandLine (t : Task) (args : Dict Value) : Option String :=
  (Template.expand args t.conf.args).bind fun s =>
    let words := ["time", "-p", t.exec] ++ split s
    let words := match args "taskset" with
      | none => some words
      | some (.str cpus) => some (["taskset", "-c", cpus] ++ words)
      | some (.int _) => none
    words.map fun words => "date \"+datetime: %Y-%m-%dT%H:%M:%S\" && " ++ " ".intercalate words

/-- The loop over the configuration's environment: `os.environ` afterwards, and whether it has come to its
    end. -/
def setEnvironment (args : Dict Value) : List (String × Template) → Dict String → Dict String × Bool
  | [], environ => (environ, true)
  | (key, template) :: rest, environ =>
    match Template.expand args template with
    | none => (environ, false)
    | some value => setEnvironment args rest (Function.update environ key (some value))

inductive Outcome where
  | raised
  | started (command : String) (environ : Dict String)

/-- `os.environ` afterwards, and what has been started. -/
def Task.run (t : Task) (args : Dict Value) (environ : Dict String) : Dict String × Outcome :=
  match setEnvironment args t.conf.environment environ with
  | (environ, false) => (environ, .raised)
  | (environ, true) =>
    match t.commandLine (t.merged args) with
    | none => (environ, .raised)
    | some command => (environ, .started command environ)

/-- `os.environ` of a worker that has run these tasks with these arguments. -/
def environAfter (environ : Dict String) (history : List (Task × Dict Value)) : Dict String :=
  history.foldl (fun environ (t, args) => (t.run args environ).1) environ

/-! ### What the launch should be -/

/-- The keys of the placeholders. -/
def Template.keys (template : Template) : List String :=
  template.filterMap fun
    | .text _ => none
    | .placeholder key _ => some key

/-- Every placeholder of the configuration names an argument. -/
def Task.Named (t : Task) (args : Dict Value) : Prop :=
  (∀ p ∈ t.conf.environment, ∀ key ∈ Template.keys p.2, args key ≠ none) ∧
    ∀ key ∈ Template.keys t.conf.args, args key ≠ none

/-- The launch of `t` in a worker that has run `history`, from the environment `environ`: it is that of a
    worker that has run nothing; it has the variables and the command line that the merged arguments give;
    and it does not raise when all placeholders name merged arguments. -/
structure Independent (environ : Dict String) (history : List (Task × Dict Value)) (t : Task)
    (args : Dict Value) : Prop where
  alone : (t.run args (environAfter environ history)).2 = (t.run args environ).2
  merged : ∀ command env, (t.run args (environAfter environ history)).2 = .started command env →
    t.commandLine (t.merged args) = some command ∧
      ∀ p ∈ t.conf.environment, env p.1 = Template.expand (t.merged args) p.2
  started : t.Named (t.merged args) → (t.run args (environAfter environ history)).2 ≠ .raised

/-- The variables that a run sets, up to the first one that it cannot expand. -/
def settings (args : Dict Value) : List (String × Template) → List (String × String)
  | [] => []
  | (key, template) :: rest =>
    match Template.expand args template with
    | none => []
    | some value => (key, value) :: settings args rest

/-- The last value that a variable is set to. -/
def lastSet (key : String) : List (String × String) → Option String
  | [] => none
  | (k, value) :: rest => (lastSet key rest).or (if k = key then some value else none)

/-- All that has been set by the tasks before. -/
def leftBy (history : List (Task × Dict Value)) : List (String × String) :=
  history.flatMap fun (t, args) => settings args t.conf.environment

/-- The conversions of a template are complete and fit their values. -/
def Template.Fits (args : Dict Value) (template : Template) : Prop :=
  ∀ key conversion value, .placeholder key conversion ∈ template → args key = some value →
    conversion.expand value ≠ none

/-- What it takes: the placeholders of the environment name run-time arguments, all conversions fit, and
    no variable that the task does not set itself has been left by an earlier task with another value than
    it has in `environ`. -/
structure Separate (environ : Dict String) (history : List (Task × Dict Value)) (t : Task)
    (args : Dict Value) : Prop where
  runtime : ∀ p ∈ t.conf.environment, ∀ key ∈ Template.keys p.2, args key ≠ none
  environment : ∀ p ∈ t.conf.environment, Template.Fits (t.merged args) p.2
  command : Template.Fits (t.merged args) t.conf.args
  taskset : ∀ n, t.merged args "taskset" ≠ some (.int n)
  clean : ∀ key ∉ t.conf.environment.map Prod.fst, ∀ value,
    lastSet key (leftBy history) = some value → environ key = some value

/-! ### Expanding -/

theorem mem_keys {template : Template} {key : String} :
    key ∈ Template.keys template ↔ ∃ conversion, .placeholder key conversion ∈ template := by
  rw [Template.keys, List.mem_filterMap]
  constructor
  · rintro ⟨_ | ⟨k, conversion⟩, hp, hk⟩
    · cases hk
    · obtain rfl := Option.some.inj hk
      exact ⟨conversion, hp⟩
  · rintro ⟨conversion, hp⟩
    exact ⟨_, hp, rfl⟩

theorem expand_congr {args args' : Dict Value} : ∀ {template : Template},
    (∀ p ∈ template, p.expand args = p.expand args') →
      Template.expand args template = Template.expand args' template
  | [], _ => rfl
  | p :: ps, h => by
      have hrest := expand_congr fun q hq => h q (List.mem_cons_of_mem _ hq)
      rw [Template.expand, Template.expand, hrest, h p (List.mem_cons_self ..)]

theorem expand_ne_none_iff {args : Dict Value} : ∀ {template : Template},
    Template.expand args template ≠ none ↔ ∀ p ∈ template, p.expand args ≠ none
  | [] => iff_of_true nofun nofun
  | p :: ps => by
      rw [List.forall_mem_cons, ← expand_ne_none_iff, Template.expand]
      cases p.expand args with
      | none => exact iff_of_false (fun h => h rfl) fun h => h.1 rfl
      | some s =>
        rw [Option.bind_some, ne_eq, Option.map_eq_none_iff]
        exact (and_iff_right nofun).symm

/-- When a template can be expanded. -/
theorem expand_ne_none {args : Dict Value} {template : Template} : Template.expand args template ≠ none ↔
    (∀ key ∈ Template.keys template, args key ≠ none) ∧ Template.Fits args template := by
  rw [expand_ne_none_iff]
  constructor
  · intro h
    refine ⟨fun key hkey hnone => ?_, fun key conversion value hp hvalue hnone => ?_⟩
    · obtain ⟨conversion, hp⟩ := mem_keys.mp hkey
      refine h _ hp ?_
      rw [Piece.expand, hnone, Option.bind_none]
    · refine h _ hp ?_
      rw [Piece.expand, hvalue, Option.bind_some, hnone]
  · rintro ⟨hkeys, hfits⟩ (s | ⟨key, conversion⟩) hp
    · exact nofun
    · obtain ⟨value, hvalue⟩ := Option.ne_none_iff_exists'.mp (hkeys key (mem_keys.mpr ⟨_, hp⟩))
      rw [Piece.expand, hvalue, Option.bind_some]
      exact hfits key conversion value hp hvalue

/-- Where the run-time arguments have all the keys, the merged arguments have the same values. -/
theorem merged_expand (t : Task) {args : Dict Value} {template : Template}
    (h : ∀ key ∈ Template.keys template, args key ≠ none) {p : Piece} (hp : p ∈ template) :
    p.expand (t.merged args) = p.expand args := by
  cases p with
  | text s => rfl
  | placeholder key conversion =>
    obtain ⟨value, hvalue⟩ := Option.ne_none_iff_exists'.mp (h key (mem_keys.mpr ⟨conversion, hp⟩))
    rw [Piece.expand, Piece.expand, Task.merged, hvalue, Option.some_or]

theorem merged_ne_none (t : Task) {args : Dict Value} {key : String} (h : args key ≠ none) :
    t.merged args key ≠ none := by
  obtain ⟨value, hvalue⟩ := Option.ne_none_iff_exists'.mp h
  rw [Task.merged, hvalue, Option.some_or]
  exact nofun

/-! ### The environment -/

theorem lastSet_append (key : String) : ∀ ps qs : List (String × String),
    lastSet key (ps ++ qs) = (lastSet key qs).or (lastSet key ps)
  | [], qs => by rw [List.nil_append, lastSet, Option.or_none]
  | (k, value) :: ps, qs => by rw [List.cons_append, lastSet, lastSet, lastSet_append, Option.or_assoc]

theorem setEnvironment_apply (args : Dict Value) (key : String) : ∀ (env : List (String × Template))
    (environ : Dict String),
    (setEnvironment args env environ).1 key = (lastSet key (settings args env)).or (environ key)
  | [], environ => rfl
  | (k, template) :: rest, environ => by
      rw [setEnvironment, settings]
      cases Template.expand args template with
      | none => rfl
      | some value =>
        simp only [setEnvironment_apply args key rest, lastSet, Option.or_assoc]
        congr 1
        rcases eq_or_ne key k with rfl | hk
        · rw [Function.update_self, if_pos rfl, Option.some_or]
        · rw [Function.update_of_ne hk, if_neg hk.symm, Option.none_or]

/-- The loop comes to its end when every template can be expanded. -/
theorem setEnvironment_complete (args : Dict Value) : ∀ (env : List (String × Template))
    (environ : Dict String),
    (setEnvironment args env environ).2 = true ↔ ∀ p ∈ env, Template.expand args p.2 ≠ none
  | [], environ => iff_of_true rfl nofun
  | (k, template) :: rest, environ => by
      rw [setEnvironment, List.forall_mem_cons]
      cases Template.expand args template with
      | none => exact iff_of_false nofun fun h => h.1 rfl
      | some value =>
        rw [setEnvironment_complete args rest]
        exact (and_iff_right nofun).symm

theorem run_environ (t : Task) (args : Dict Value) (environ : Dict String) (key : String) :
    (t.run args environ).1 key = (lastSet key (settings args t.conf.environment)).or (environ key) := by
  rw [← setEnvironment_apply, Task.run]
  rcases setEnvironment args t.conf.environment environ with ⟨environ', _ | _⟩
  · rfl
  · cases t.commandLine (t.merged args) <;> rfl

theorem environAfter_apply (key : String) : ∀ (history : List (Task × Dict Value)) (environ : Dict String),
    environAfter environ history key = (lastSet key (leftBy history)).or (environ key)
  | [], environ => rfl
  | (t, args) :: history, environ => by
      have ih := environAfter_apply key history (t.run args environ).1
      rw [run_environ, ← Option.or_assoc, ← lastSet_append] at ih
      exact ih

/-- The variables of the configuration itself, when all of them can be expanded. -/
theorem lastSet_settings {args : Dict Value} : ∀ {env : List (String × Template)},
    (env.map Prod.fst).Nodup → (∀ p ∈ env, Template.expand args p.2 ≠ none) →
    (∀ p ∈ env, lastSet p.1 (settings args env) = Template.expand args p.2) ∧
      ∀ key ∉ env.map Prod.fst, lastSet key (settings args env) = none
  | [], _, _ => ⟨nofun, fun _ _ => rfl⟩
  | (k, template) :: rest, hnodup, h => by
      rw [List.map_cons, List.nodup_cons] at hnodup
      obtain ⟨hin, hout⟩ := lastSet_settings hnodup.2 fun p hp => h p (List.mem_cons_of_mem _ hp)
      obtain ⟨value, hvalue⟩ := Option.ne_none_iff_exists'.mp (h (k, template) (List.mem_cons_self ..))
      have hset : settings args ((k, template) :: rest) = (k, value) :: settings args rest := by
        simp only [settings, hvalue]
      constructor
      · intro p hp
        rcases List.mem_cons.mp hp with rfl | hp
        · rw [hset, lastSet, hout k hnodup.1, if_pos rfl, Option.none_or, hvalue]
        · have hsome := h p (List.mem_cons_of_mem _ hp)
          rw [hset, lastSet, hin p hp]
          obtain ⟨value', hvalue'⟩ := Option.ne_none_iff_exists'.mp hsome
          rw [hvalue', Option.some_or]
      · intro key hkey
        rw [List.map_cons, List.mem_cons, not_or] at hkey
        rw [hset, lastSet, hout key hkey.2, if_neg fun h => hkey.1 h.symm, Option.or_none]

/-! ### The launch -/

/-- When the command line can be made. -/
theorem commandLine_ne_none (t : Task) (args : Dict Value) : t.commandLine args ≠ none ↔
    Template.expand args t.conf.args ≠ none ∧ ∀ n, args "taskset" ≠ some (.int n) := by
  unfold Task.commandLine
  cases Template.expand args t.conf.args with
  | none => exact iff_of_false (fun h => h rfl) fun h => h.1 rfl
  | some s =>
    rw [Option.bind_some, and_iff_right nofun]
    rcases args "taskset" with _ | ⟨cpus | n⟩
    · exact iff_of_true nofun fun _ => nofun
    · exact iff_of_true nofun fun _ => nofun
    · exact iff_of_false (fun h => h rfl) fun h => h n rfl

/-- The child is started when the environment and the command line can be expanded. -/
theorem run_started {t : Task} {args : Dict Value} {environ : Dict String} {command : String}
    {env : Dict String} : (t.run args environ).2 = .started command env ↔
      (∀ p ∈ t.conf.environment, Template.expand args p.2 ≠ none) ∧
        t.commandLine (t.merged args) = some command ∧ (t.run args environ).1 = env := by
  rw [← setEnvironment_complete args t.conf.environment environ, Task.run]
  rcases setEnvironment args t.conf.environment environ with ⟨environ', _ | _⟩
  · exact iff_of_false nofun fun h => absurd h.1 nofun
  · cases t.commandLine (t.merged args) with
    | none => exact iff_of_false nofun fun h => absurd h.2.1 nofun
    | some c =>
      simp only [Outcome.started.injEq, Option.some.injEq, true_and]

theorem run_raised {t : Task} {args : Dict Value} {environ : Dict String}
    (h : ¬((∀ p ∈ t.conf.environment, Template.expand args p.2 ≠ none) ∧
      t.commandLine (t.merged args) ≠ none)) : (t.run args environ).2 = .raised := by
  cases hrun : (t.run args environ).2 with
  | raised => rfl
  | started command env =>
    obtain ⟨henv, hcommand, -⟩ := run_started.mp hrun
    refine absurd ⟨henv, ?_⟩ h
    rw [hcommand]
    exact nofun

/-- A template that the run-time arguments expand is expanded in the same way by the merged ones. -/
theorem expand_merged {t : Task} {args : Dict Value} {template : Template}
    (h : ∀ key ∈ Template.keys template, args key ≠ none) :
    Template.expand (t.merged args) template = Template.expand args template :=
  expand_congr fun _ hp => merged_expand t h hp

/-- The variables of a child that is started. -/
theorem run_environ_of_expand {t : Task} {args : Dict Value}
    (h : ∀ p ∈ t.conf.environment, Template.expand args p.2 ≠ none) (environ : Dict String) :
    (∀ p ∈ t.conf.environment, (t.run args environ).1 p.1 = Template.expand args p.2) ∧
      ∀ key ∉ t.conf.environment.map Prod.fst, (t.run args environ).1 key = environ key := by
  obtain ⟨hin, hout⟩ := lastSet_settings t.conf.keys_nodup h
  constructor
  · intro p hp
    obtain ⟨value, hvalue⟩ := Option.ne_none_iff_exists'.mp (h p hp)
    rw [run_environ, hin p hp, hvalue, Option.some_or]
  · intro key hkey
    rw [run_environ, hout key hkey, Option.none_or]

/-- Where not all placeholders name merged arguments, the run raises in every environment. -/
theorem run_unnamed {t : Task} {args : Dict Value} (h : ¬t.Named (t.merged args)) (environ : Dict String) :
    (t.run args environ).2 = .raised := by
  refine run_raised fun ⟨henv, hcommand⟩ => h ⟨fun p hp key hkey => ?_, fun key hkey => ?_⟩
  · exact merged_ne_none t ((expand_ne_none.mp (henv p hp)).1 key hkey)
  · exact (expand_ne_none.mp ((commandLine_ne_none t _).mp hcommand).1).1 key hkey

theorem Separate.expand {environ : Dict String} {history : List (Task × Dict Value)} {t : Task}
    {args : Dict Value} (h : Separate environ history t args) (hnamed : t.Named (t.merged args)) :
    (∀ p ∈ t.conf.environment, Template.expand args p.2 ≠ none) ∧ t.commandLine (t.merged args) ≠ none := by
  refine ⟨fun p hp => ?_, (commandLine_ne_none t _).mpr ⟨expand_ne_none.mpr ⟨hnamed.2, h.command⟩, h.taskset⟩⟩
  rw [← expand_merged (h.runtime p hp)]
  exact expand_ne_none.mpr ⟨hnamed.1 p hp, h.environment p hp⟩

/-- CORRECT: a launch is independent of the tasks before it and made from the merged arguments alone
    exactly when it is separate from them, or some placeholder names no merged argument. -/
theorem launch_independent_iff (environ : Dict String) (history : List (Task × Dict Value)) (t : Task)
    (args : Dict Value) : Independent environ history t args ↔
      (t.Named (t.merged args) → Separate environ history t args) := by
  constructor
  · intro h hnamed
    cases hrun : (t.run args (environAfter environ history)).2 with
    | raised => exact absurd hrun (h.started hnamed)
    | started command env =>
      obtain ⟨henv, hcommand, hrest⟩ := run_started.mp hrun
      have hcommand' := (commandLine_ne_none t _).mp (by rw [hcommand]; exact nofun)
      have hruntime : ∀ p ∈ t.conf.environment, ∀ key ∈ Template.keys p.2, args key ≠ none :=
        fun p hp => (expand_ne_none.mp (henv p hp)).1
      refine ⟨hruntime, fun p hp => ?_, (expand_ne_none.mp hcommand'.1).2, hcommand'.2, ?_⟩
      · refine (expand_ne_none.mp ?_).2
        rw [expand_merged (hruntime p hp)]
        exact henv p hp
      · -- the child of a worker that has run nothing has the same variables
        intro key hkey value hvalue
        have halone := h.alone
        rw [hrun] at halone
        obtain ⟨-, -, hfresh⟩ := run_started.mp halone.symm
        have hsame := congrFun (hrest.trans hfresh.symm) key
        rw [(run_environ_of_expand henv _).2 key hkey, (run_environ_of_expand henv _).2 key hkey,
          environAfter_apply, hvalue, Option.some_or] at hsame
        exact hsame.symm
  · intro h
    by_cases hnamed : t.Named (t.merged args)
    · have hsep := h hnamed
      obtain ⟨henv, hcommand⟩ := hsep.expand hnamed
      obtain ⟨command, hcommand⟩ := Option.ne_none_iff_exists'.mp hcommand
      have hstart : ∀ e, (t.run args e).2 = .started command (t.run args e).1 :=
        fun e => run_started.mpr ⟨henv, hcommand, rfl⟩
      refine ⟨?_, fun c env hrun => ?_, fun _ => ?_⟩
      · rw [hstart, hstart]
        refine congrArg _ (funext fun key => ?_)
        by_cases hkey : key ∈ t.conf.environment.map Prod.fst
        · obtain ⟨p, hp, rfl⟩ := List.mem_map.mp hkey
          rw [(run_environ_of_expand henv _).1 p hp, (run_environ_of_expand henv _).1 p hp]
        · rw [(run_environ_of_expand henv _).2 key hkey, (run_environ_of_expand henv _).2 key hkey,
            environAfter_apply]
          cases hleft : lastSet key (leftBy history) with
          | none => rw [Option.none_or]
          | some value => rw [Option.some_or, hsep.clean key hkey value hleft]
      · obtain ⟨-, hc, rfl⟩ := run_started.mp hrun
        refine ⟨hc, fun p hp => ?_⟩
        rw [(run_environ_of_expand henv _).1 p hp, expand_merged (hsep.runtime p hp)]
      · rw [hstart]
        exact nofun
    · refine ⟨?_, fun c env hrun => ?_, fun hn => absurd hn hnamed⟩
      · rw [run_unnamed hnamed, run_unnamed hnamed]
      · rw [run_unnamed hnamed] at hrun
        cases hrun

/-- The configuration of vips. -/
def vips : Conf where
  exe := some "bin/vips"
  args := [.text "im_benchmark ", .placeholder "inputs" .s, .text "/orion_18000x18000.v ",
    .placeholder "outputs" .s, .text "/output.v"]
  environment := [("IM_CONCURRENCY", [.placeholder "nthreads" .s])]
  keys_nodup := by decide
  maxThreads := none
  minThreads := none

/-- `Job.run` passes no run-time arguments: vips raises, though `nthreads` is one of its arguments. -/
theorem vips_raises :
    let t : Task := ⟨fun _ => none, "vips", "pthread", 4, vips, "build/apps/vips", "apps/vips/inputs", "out/0"⟩
    t.Named (t.merged fun _ => none) ∧ (t.run (fun _ => none) fun _ => none).2 = .raised ∧
      ¬Independent (fun _ => none) [] t fun _ => none := by
  intro t
  have hnamed : t.Named (t.merged fun _ => none) := by
    refine ⟨fun p hp key hkey => ?_, fun key hkey => ?_⟩
    · obtain rfl := List.mem_singleton.mp hp
      obtain rfl := List.mem_singleton.mp hkey
      exact nofun
    · change key ∈ ["inputs", "outputs"] at hkey
      rcases List.mem_cons.mp hkey with rfl | hkey
      · exact nofun
      · obtain rfl := List.mem_singleton.mp hkey
        exact nofun
  have hraised : (t.run (fun _ => none) fun _ => none).2 = .raised := rfl
  exact ⟨hnamed, hraised, fun h => h.started hnamed hraised⟩

end Turkey.Launch
