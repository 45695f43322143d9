import OpcUaTestTool.Transition
import OpcUaTestTool.Numerals
import OpcUaTestTool.FiniteMap
import OpcUaTestTool.Directory
import OpcUaTestTool.FileSystem
import OpcUaTestTool.Store
import OpcUaTestTool.JobScheduler
import OpcUaTestTool.FifoSlots
import OpcUaTestTool.SchedulerRuns
import OpcUaTestTool.ServiceProcesses
import OpcUaTestTool.SignalCoalescing
import OpcUaTestTool.PidReuse
import OpcUaTestTool.EventDispatcher
import OpcUaTestTool.EventStreams
import OpcUaTestTool.JobLifetimes
import OpcUaTestTool.JsonValues
import OpcUaTestTool.TestRunner
import OpcUaTestTool.ResultFiles
import OpcUaTestTool.ScriptPaths
import OpcUaTestTool.SymbolicLinks
import OpcUaTestTool.ScriptLinks
import OpcUaTestTool.FinishedJobs
import OpcUaTestTool.InfluxImporter
import OpcUaTestTool.RecordExchange
import OpcUaTestTool.Api
import OpcUaTestTool.JsonText
import OpcUaTestTool.ServerSentEvents
import OpcUaTestTool.EventMessages
import OpcUaTestTool.Requests
import OpcUaTestTool.ScriptPage
import OpcUaTestTool.JobsPage
import OpcUaTestTool.CriticalSections
import OpcUaTestTool.RepoClone
import OpcUaTestTool.ReplInput
import OpcUaTestTool.LockWaiting
import OpcUaTestTool.FinishedBounds
import OpcUaTestTool.FinishedArray
import OpcUaTestTool.ImportCursor
import OpcUaTestTool.ReplOutput
import OpcUaTestTool.RequestWrites
import OpcUaTestTool.ScriptNames
import OpcUaTestTool.CurlFetch
import OpcUaTestTool.JobTimes
import OpcUaTestTool.NewLineErrors
import OpcUaTestTool.ConsoleLines
import OpcUaTestTool.ConsoleOptions
import OpcUaTestTool.JsonBrackets
import OpcUaTestTool.JsonLibrary
import OpcUaTestTool.ServedBodies
import OpcUaTestTool.ServiceRuns
import OpcUaTestTool.AnnouncedResults
import OpcUaTestTool.WebJobs
import OpcUaTestTool.FileDescriptors
import OpcUaTestTool.ReplPipe
import OpcUaTestTool.JobLogs
import OpcUaTestTool.ConfigFile
import OpcUaTestTool.Routes
