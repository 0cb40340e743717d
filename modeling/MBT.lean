import MBT.Path.RealPaths
import MBT.Path.Trails
import MBT.Path.ShortRound
import MBT.Generate.MGenReplacedStep
import MBT.Generate.MGenMbtXml
import MBT.Loader.MTestLoader
import MBT.Data.MDataAlgo
import MBT.View.MQTestView
import MBT.Cases.MGenCase
import MBT.View.LoadNonMsg
import MBT.View.ScriptNames
import MBT.View.StepRows
import MBT.View.ConvertParam
import MBT.View.DbVerify
import MBT.View.LoadSelection
import MBT.View.SqlExpr
import MBT.View.UnitClasses
import MBT.Generate.StepNumbers
import MBT.View.MGenDataFile
import MBT.View.ClassChains
import MBT.View.ArrayAccess
import MBT.View.MsgValues
import MBT.Cases.ScriptContent
import MBT.Generate.ParamMarks
import MBT.Generate.ParamNames
import MBT.Graph.GraphCalls
import MBT.Generate.MGenGraph
import MBT.Generate.ScenarioInfo
import MBT.Draw.MDraw
import MBT.Path.Depth
import MBT.Precision.GetCppFunc
import MBT.Data.ValueLists
import MBT.Logger.MLogger
import MBT.Files.MFile
import MBT.Precision.FuncNames
import MBT.Path.MGenPath
import MBT.Draw.SeqGraph
import MBT.Xml.MbtXml
import MBT.Xml.MGenStepXml
import MBT.Loader.Documents
import MBT.Profile.Pprof
