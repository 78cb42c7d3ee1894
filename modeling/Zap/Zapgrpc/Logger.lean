import Zap.Sugar

/-!
# A logger for gRPC

`Logger` of `zapgrpc/zapgrpc.go`: the methods that `grpclog` asks for, on top of a sugared logger. The
methods whose names end in `ln` format their message here, so they ask first whether the level is
enabled at all.
-/

set_option autoImplicit false

namespace Zap.Zapgrpc

open Data Zapcore

variable {E F V : Type}

/-- `_grpcToZapLevel`; a level that is not in the map is looked up as the zero value. -/
def grpcToZapLevel (level : Int) : Level :=
  if level = 0 then Level.info
  else if level = 1 then Level.warn
  else if level = 2 then Level.error
  else if level = 3 then Level.fatal
  else 0

/-- `sprintln`, which takes off the newline at the end. -/
def sprintln [Format F V] (args : List (Arg F V)) : Bytes := (Format.sprintln args).dropLast

/-- A `printer`. -/
structure Printer (E F V : Type) where
  enab : Level → Bool
  level : Level
  print : List (Arg F V) → World E F → World E F
  printf : Bytes → List (Arg F V) → World E F → World E F

/-- `Println`. -/
def Printer.println [Format F V] (v : Printer E F V) (args : List (Arg F V)) (w : World E F) :
    World E F :=
  if v.enab v.level then v.print [.string (sprintln args)] w else w

/-- A `Logger`. Its fields `print` and `fatal` are `printer` and `fatalPrinter` here. -/
structure Logger (E F V : Type) where
  delegate : SugaredLogger E F
  levelEnabler : Level → Bool
  printer : Printer E F V
  fatalPrinter : Printer E F V

/-- An `Option`. -/
inductive LoggerOption where
  | withDebug
  | withWarn
  deriving DecidableEq

section

variable [Encoder E F] [Environment E F] [Process E F] [Format F V]

/-- A printer that logs with a method of the sugared logger. -/
def Printer.ofMethod (delegate : SugaredLogger E F) (enab : Level → Bool) (method : Method) :
    Printer E F V where
  enab := enab
  level := method.level
  print := delegate.print method
  printf := delegate.printf method

/-- `apply`. -/
def LoggerOption.apply (opt : LoggerOption) (l : Logger E F V) : Logger E F V :=
  match opt with
  | .withDebug => { l with printer := .ofMethod l.delegate l.levelEnabler .debug }
  | .withWarn => { l with fatalPrinter := .ofMethod l.delegate l.levelEnabler .warn }

/-- `NewLogger`. -/
def newLogger (l : Zap.Logger E F) (options : List LoggerOption) : Logger E F V :=
  options.foldl (fun logger opt => opt.apply logger)
    { delegate := l.sugar
      levelEnabler := l.core.enabled
      printer := .ofMethod l.sugar l.core.enabled .info
      fatalPrinter := .ofMethod l.sugar l.core.enabled .fatal }

namespace Logger

variable (l : Logger E F V)

/-- `Infoln`, `Warningln` and `Errorln`. -/
def logln (method : Method) (args : List (Arg F V)) (w : World E F) : World E F :=
  if l.levelEnabler method.level then l.delegate.print method [.string (sprintln args)] w else w

def print (args : List (Arg F V)) (w : World E F) : World E F := l.printer.print args w

def printf (format : Bytes) (args : List (Arg F V)) (w : World E F) : World E F :=
  l.printer.printf format args w

def println (args : List (Arg F V)) (w : World E F) : World E F := l.printer.println args w

def info (args : List (Arg F V)) (w : World E F) : World E F := l.delegate.print .info args w

def infoln (args : List (Arg F V)) (w : World E F) : World E F := l.logln .info args w

def infof (format : Bytes) (args : List (Arg F V)) (w : World E F) : World E F :=
  l.delegate.printf .info format args w

def warning (args : List (Arg F V)) (w : World E F) : World E F := l.delegate.print .warn args w

def warningln (args : List (Arg F V)) (w : World E F) : World E F := l.logln .warn args w

def warningf (format : Bytes) (args : List (Arg F V)) (w : World E F) : World E F :=
  l.delegate.printf .warn format args w

def error (args : List (Arg F V)) (w : World E F) : World E F := l.delegate.print .error args w

def errorln (args : List (Arg F V)) (w : World E F) : World E F := l.logln .error args w

def errorf (format : Bytes) (args : List (Arg F V)) (w : World E F) : World E F :=
  l.delegate.printf .error format args w

def fatal (args : List (Arg F V)) (w : World E F) : World E F := l.fatalPrinter.print args w

def fatalln (args : List (Arg F V)) (w : World E F) : World E F := l.fatalPrinter.println args w

def fatalf (format : Bytes) (args : List (Arg F V)) (w : World E F) : World E F :=
  l.fatalPrinter.printf format args w

/-- `V`. -/
def verbose (level : Int) : Bool := l.levelEnabler (grpcToZapLevel level)

end Logger

end

end Zap.Zapgrpc
