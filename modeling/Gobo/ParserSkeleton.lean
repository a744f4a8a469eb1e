/-
The loop of a table-driven parser (`YY_PARSER_SKELETON.parse`), which semantic
actions can suspend, and the routines that its descendants effect.
-/
import Gobo.Loop
import Gobo.Special

namespace Gobo

/-- The goto constants; `unset` is what an attribute holds before it is set. -/
inductive Goto where
  | unset
  | newstate
  | default
  | reduce
  | errlab
  | errhandle
  | errpop
  deriving DecidableEq

inductive ParsingStatus where
  | unset
  | accepted
  | aborted
  | errorRaised
  | continue
  | suspended
  deriving DecidableEq

/-- What `yy_build_parser_tables` and the constants of a parser supply. -/
structure ParserTables where
  yytranslate : Special Int
  yyr1 : Special Int
  yydefact : Special Int
  yydefgoto : Special Int
  yypact : Special Int
  yypgoto : Special Int
  yytable : Special Int
  yycheck : Special Int
  yyFinal : Int
  yyFlag : Int
  yyNtbase : Int
  yyLast : Int
  yyMaxToken : Int
  yyNsyms : Int

/-- The local variables of `parse`. -/
structure ParseLocals where
  yystacksize : Nat := 0
  yystate : Int := 0
  yyn : Int := 0
  yychar1 : Int := 0
  index : Int := 0
  yyssTop : Int := 0
  yyGoto : Goto := .unset
  deriving DecidableEq

/-- The attributes of a parser that its actions see and change.  `client` is all
that its descendants add: the value stacks, the input. -/
structure ParserCore (σ : Type) where
  errorCount : Int
  lastToken : Int
  yyss : Special Int
  yyssp : Int
  lookaheadNeeded : Bool
  yyerrstatus : Int
  client : σ

structure ParserState (σ : Type) extends ParserCore σ where
  status : ParsingStatus

/-- `suspended` are the attributes `yy_suspended_*`. -/
structure Parser (σ : Type) extends ParserState σ where
  suspended : ParseLocals

/-- What an action does, step by step.  `update` is everything that is not a
call of one of the routines of the skeleton. -/
inductive ActionCall (σ : Type) where
  | update (f : ParserCore σ → ParserCore σ)
  | clearToken
  | recover
  | raiseError
  | accept
  | abort
  | suspend

def ActionCall.isSuspend {σ : Type} : ActionCall σ → Bool
  | .suspend => true
  | _ => false

/-- The deferred routines. -/
structure ParserClient (σ : Type) where
  readToken : σ → σ × Int
  yyDoAction : Int → ParserCore σ → List (ActionCall σ)
  yyDoErrorAction : Int → ParserCore σ → List (ActionCall σ)
  yyInitValueStacks : σ → σ
  clearAll : σ → σ
  yyPushLastValue : Int → Int → σ → σ
  yyPushErrorValue : σ → σ
  yyPopLastValue : Int → σ → σ

def yyTerror : Int := 1

def yyEof : Int := 0

def yyInitialStackSize : Nat := 200

variable {σ : Type}

namespace ParserState

section

variable (p : ParserState σ)

def accept : ParserState σ :=
  { p with status := .accepted }

def abort : ParserState σ :=
  { p with status := .aborted }

def suspend : ParserState σ :=
  { p with status := .suspended }

def raiseError : ParserState σ :=
  { p with status := .errorRaised }

def recover : ParserState σ :=
  { p with yyerrstatus := 0, status := .continue }

def clearToken : ParserState σ :=
  { p with lookaheadNeeded := true }

/-- One step of an action. -/
def call : ActionCall σ → ParserState σ
  | .update f => { p with toParserCore := f p.toParserCore }
  | .clearToken => p.clearToken
  | .recover => p.recover
  | .raiseError => p.raiseError
  | .accept => p.accept
  | .abort => p.abort
  | .suspend => p.suspend

def perform (calls : List (ActionCall σ)) : ParserState σ := calls.foldl call p

end

end ParserState

/-- Is `i` inside the tables, and is its entry for `c`? -/
def ParserTables.hasEntry (T : ParserTables) (i c : Int) : Option Bool :=
  if i < 0 ∨ T.yyLast < i then some false
  else (T.yycheck.item i).map fun d => d == c

/-- "Shift" the result of a reduction: the state to go to, based on the state
popped back to and the rule reduced by. -/
def ParserTables.gotoState (T : ParserTables) (l : ParseLocals) (p : ParserState σ) :
    Option ParseLocals := do
  let yyn ← T.yyr1.item l.yyn
  let yyssTop ← p.yyss.item p.yyssp
  let index := yyn - T.yyNtbase
  let target := (← T.yypgoto.item index) + yyssTop
  let yystate ← (if ← T.hasEntry target yyssTop then T.yytable.item target
    else T.yydefgoto.item index : Option _)
  return { l with yyn, yyssTop, index, yystate, yyGoto := .newstate }

namespace ParserClient

variable (C : ParserClient σ) (T : ParserTables)

section

variable (l : ParseLocals) (p : ParserState σ)

/-- An error is counted and its action called. -/
def reportError : ParserState σ :=
  let p := { p with errorCount := p.errorCount + 1 }
  p.perform (C.yyDoErrorAction l.yystate p.toParserCore)

/-- Convert the lookahead token to its internal form. -/
def translate : Option (ParseLocals × ParserState σ) :=
  if yyEof < p.lastToken then do
    let yychar1 ← (if p.lastToken ≤ T.yyMaxToken then T.yytranslate.item p.lastToken
      else some T.yyNsyms : Option _)
    return ({ l with yychar1, yyn := l.yyn + yychar1 }, p)
  else if p.lastToken = yyEof then
    some ({ l with yychar1 := 0 }, p)
  else
    -- An error occurred in the scanner.
    some ({ l with yyn := -1 }, (C.reportError l p).abort)

/-- Shift the lookahead token. -/
def shift : ParseLocals × ParserState σ := ({ l with yystate := l.yyn },
    { p with
      lookaheadNeeded := decide (yyEof < p.lastToken) || p.lookaheadNeeded
      client := C.yyPushLastValue p.lastToken l.yychar1 p.client
      yyerrstatus := if p.yyerrstatus ≠ 0 then p.yyerrstatus - 1 else p.yyerrstatus })

/-- Push the current state, on a stack that may have to grow. -/
def pushState : Option (ParseLocals × ParserState σ) :=
  let yyssp := p.yyssp + 1
  let grown := decide ((l.yystacksize : Int) ≤ yyssp)
  let yystacksize := if grown then l.yystacksize + yyInitialStackSize else l.yystacksize
  let yyss := if grown then p.yyss.aliasedResizedArea yystacksize else p.yyss
  (yyss.force l.yystate yyssp).map fun yyss =>
    ({ l with yystacksize }, { p with yyssp, yyss })

end

/-- Read a lookahead token if one is needed. -/
def readLookahead (p : ParserState σ) : ParserState σ :=
  if p.lookaheadNeeded then
    { p with
      client := (C.readToken p.client).1
      lastToken := (C.readToken p.client).2
      lookaheadNeeded := false }
  else p

/-- What the tables say to do at `yyn` for the token `c`: to go to `missing`
where there is no entry, to go to `error`, to reduce, to accept or to shift. -/
def lookUp (c : Int) (missing error : Goto)
    (shift : ParseLocals → ParserState σ → ParseLocals × ParserState σ)
    (l : ParseLocals) (p : ParserState σ) : Option (ParseLocals × ParserState σ) := do
  if ← T.hasEntry l.yyn c then
    let yyn ← T.yytable.item l.yyn
    return (
      if yyn < 0 then
        if yyn = T.yyFlag then ({ l with yyn, yyGoto := error }, p)
        else ({ l with yyn := -yyn, yyGoto := .reduce }, p)
      else if yyn = 0 then ({ l with yyn, yyGoto := error }, p)
      else if yyn = T.yyFinal then ({ l with yyn }, p.accept)
      else shift { l with yyn } p)
  else
    return ({ l with yyGoto := missing }, p)

section

variable (l : ParseLocals) (p : ParserState σ)

def newstate : Option (ParseLocals × ParserState σ) := do
  let (l, p) ← pushState l p
  let yyn ← T.yypact.item l.yystate
  if yyn = T.yyFlag then
    return ({ l with yyn, yyGoto := .default }, p)
  else
    let (l, p) ← C.translate T { l with yyn } (C.readLookahead p)
    lookUp T l.yychar1 .default .errlab C.shift l p

/-- Do the default action for the current state. -/
def default : Option (ParseLocals × ParserState σ) := do
  let yyn ← T.yydefact.item l.yystate
  return ({ l with yyn, yyGoto := if yyn = 0 then .errlab else .reduce }, p)

/-- What an action leaves to do. -/
def afterAction : Option (ParseLocals × ParserState σ) :=
  match p.status with
  | .continue => (T.gotoState l p).map fun l => (l, p)
  | .errorRaised => some ({ l with yyGoto := .errlab }, { p with status := .continue })
  | _ => some (l, p)

/-- Do a reduction; `yyn` is the number of a rule to reduce with. -/
def reduce : Option (ParseLocals × ParserState σ) :=
  afterAction T l (p.perform (C.yyDoAction l.yyn p.toParserCore))

/-- Detect an error. -/
def errlab : ParseLocals × ParserState σ :=
  if p.yyerrstatus = 3 then
    -- The lookahead token could not be reused after an error.
    if p.lastToken ≤ yyEof then (l, p.abort)
    else ({ l with yyGoto := .errhandle }, { p with lookaheadNeeded := true })
  else
    let p := if p.yyerrstatus = 0 then C.reportError l p else p
    ({ l with yyGoto := .errhandle }, { p with yyerrstatus := 3 })

/-- Shift the error token. -/
def shiftError : ParseLocals × ParserState σ :=
  ({ l with yystate := l.yyn, yyGoto := .newstate },
    { p with client := C.yyPushErrorValue p.client })

/-- Handle an error. -/
def errhandle : Option (ParseLocals × ParserState σ) := do
  let yyn ← T.yypact.item l.yystate
  if yyn = T.yyFlag then
    return ({ l with yyn, yyGoto := .errpop }, p)
  else
    lookUp T yyTerror .errpop .errpop C.shiftError { l with yyn := yyn + yyTerror } p

/-- Pop the current state because it cannot handle the error token. -/
def errpop : Option (ParseLocals × ParserState σ) :=
  if p.yyssp = 0 then
    some (l, p.abort)
  else do
    let p := { p with
      client := C.yyPopLastValue l.yystate p.client
      yyssp := p.yyssp - 1 }
    return ({ l with yystate := ← p.yyss.item p.yyssp, yyGoto := .errhandle }, p)

/-- The branch for `yy_goto`. -/
def branch : Option (ParseLocals × ParserState σ) :=
  match l.yyGoto with
  | .unset => none
  | .newstate => C.newstate T l p
  | .default => ParserClient.default T l p
  | .reduce => C.reduce T l p
  | .errlab => some (C.errlab l p)
  | .errhandle => C.errhandle T l p
  | .errpop => C.errpop l p

end

/-- One turn of the loop in `parse`.  The locals are only remembered where a
reduction is suspended. -/
def turn (m : ParseLocals × Parser σ) : Option (ParseLocals × Parser σ) := do
  let (l, p) ← C.branch T m.1 m.2.toParserState
  let suspended := if m.1.yyGoto = .reduce ∧ p.status = .suspended then l
    else m.2.suspended
  return (l, { p with suspended })

/-- What is done before the loop when parsing was suspended. -/
def resume (p : Parser σ) : Option (ParseLocals × Parser σ) := do
  let p' := { p with status := .continue }
  let l ← (if p.suspended.yyGoto = .reduce then
    T.gotoState p.suspended p'.toParserState else some p.suspended : Option _)
  return (l, p')

/-- What is done before the loop otherwise. -/
def start (p : Parser σ) : ParseLocals × Parser σ :=
  ({ yystacksize := p.yyss.count, yyGoto := .newstate },
    { p with
      errorCount := 0
      lookaheadNeeded := true
      yyerrstatus := 0
      client := C.yyInitValueStacks p.client
      yyssp := -1
      status := .continue })

def enter (p : Parser σ) : Option (ParseLocals × Parser σ) :=
  if p.status = .suspended then resume T p else some (C.start p)

/-- `yy_clear_all` is called unless parsing was suspended. -/
def leave (p : Parser σ) : Parser σ :=
  if p.status ≠ .suspended then { p with client := C.clearAll p.client } else p

/-- One call of `parse` that takes less than `fuel` turns. -/
def parse (fuel : Nat) (p : Parser σ) : Option (Parser σ) := do
  let m ← C.enter T p
  let m ← loopUntil (fun m => some (decide (m.2.status ≠ .continue))) (C.turn T) fuel m
  return C.leave m.2

/-- `parse` is called, and called again while `is_suspended`. -/
def parseAll (fuel : Nat) : Nat → Parser σ → Option (Parser σ)
  | 0, _ => none
  | calls + 1, p => do
      let p ← C.parse T fuel p
      if p.status = .suspended then parseAll fuel calls p else some p

/-- The same client, whose actions do not suspend. -/
def quiet : ParserClient σ :=
  { C with
    yyDoAction := fun n p => (C.yyDoAction n p).filter fun c => !c.isSuspend
    yyDoErrorAction := fun n p => (C.yyDoErrorAction n p).filter fun c => !c.isSuspend }

end ParserClient

end Gobo
