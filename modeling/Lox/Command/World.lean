import Lox.Command.Files

/-! # A simulated terminal

Files, the input yet to be read, and what was written, as plain data. It has the same interface as the real
surroundings. -/

namespace Lox.Command

/-- The simulated surroundings. -/
structure World where
  files : Files := {}
  input : ByteArray := .empty
  output : ByteArray := .empty
  complaints : String := ""
  /-- What the clock shows. -/
  time : Float := 0
  /-- What it shows each time it has been read once more, as long as it moves. -/
  later : List Float := []

namespace World

/-- The next line of input, and the world after it is read. -/
def readLine (world : World) : ByteArray × World :=
  let stop := match world.input.findIdx? (· == 10) with
    | some place => place + 1
    | none => world.input.size
  (world.input.extract 0 stop, { world with input := world.input.extract stop world.input.size })

/-- The reading of the clock, and the world after it is read. -/
def readClock (world : World) : Float × World :=
  (world.time, { world with time := world.later.headD world.time, later := world.later.tail })

/-- The simulated surroundings as a terminal. -/
def terminal : Terminal (StateM World) where
  readFile path := fun world => (world.files.read path, world)
  writeFile path bytes := fun world =>
    match world.files.write path bytes with
    | .ok files => (.ok (), { world with files })
    | .error problem => (.error problem, world)
  readLine := fun world => world.readLine
  write bytes := fun world => ((), { world with output := world.output ++ bytes })
  complain text := fun world => ((), { world with complaints := world.complaints ++ text })
  now := readClock

end World

end Lox.Command
